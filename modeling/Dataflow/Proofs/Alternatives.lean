import Dataflow.Proofs.Attempts
import Dataflow.Proofs.Lookup

/-! # Waiting for one of many fields

  A call that waits for one of many fields proceeds with the first field that has a value. If there
  is none, it waits for a variable that tells when one of them gets its value: the only field
  itself, or a control that listens to all of them.

  The control of a record is found again by a search through a list of listeners, and it might be
  missed, or another might be found in its place, once more controls have been added. That this does
  not happen rests on how controls come to listen: a control is new when it is put in lists, and is
  put in none later. So a control that was passed over is passed over for good, as long as no
  variable is bound.
-/

open Relation (ReflTransGen)
open Std (OrientedCmp ReflCmp)

namespace Dataflow

namespace Heap

variable {h h' h'' : Heap}

/-! ### New listeners -/

/-- The second heap is a later state of the first in which no variable has been bound, and only
    controls that are new have come to listen. -/
structure Admits (h h' : Heap) : Prop extends h.Extends h' where
  /-- A control that listens did so before, or is newer than all variables of the first heap. -/
  late : ∀ {v c : VarRef} {ls : List Listener}, h.cell v = .ok (.unbound ls) →
    h'.Listens (.control c) v → .control c ∈ ls ∨ h.cells.size ≤ c.index

theorem Admits.refl (h : Heap) : h.Admits h :=
  { Extends.refl h with
    late := by
      rintro v c ls hv ⟨ks, hk, hl⟩
      rw [hv] at hk
      cases hk
      exact .inl hl }

theorem Grows.size_le (hg : h.Grows h') : h.cells.size ≤ h'.cells.size := by
  by_contra hlt
  -- the variable at the end of the first heap would be missing
  have hin : h.InRange (.variable ⟨h'.cells.size⟩) := by
    simpa [InRange, containsVariable] using hlt
  obtain ⟨cell, hcell⟩ := cell_of_inRange hin
  have hcell' : ∃ cell', h'.cell ⟨h'.cells.size⟩ = .ok cell' := by
    cases cell with
    | bound x => exact ⟨_, hg.bound hcell⟩
    | unbound ls =>
      rcases hg.unbound hcell with ⟨ms, hc⟩ | ⟨x, hc⟩
      · exact ⟨_, hc⟩
      · exact ⟨_, hc⟩
  obtain ⟨cell', hc⟩ := hcell'
  exact Nat.lt_irrefl _ (lt_of_cell hc)

theorem Admits.trans (h₁ : h.Admits h') (h₂ : h'.Admits h'') : h.Admits h'' :=
  { h₁.toExtends.trans h₂.toExtends with
    late := by
      intro v c ls hv hl
      obtain ⟨ls', hv'⟩ := h₁.stays hv
      rcases h₂.late hv' hl with hmem | hle
      · exact h₁.late hv ⟨ls', hv', hmem⟩
      · exact .inr (Nat.le_trans h₁.toGrows.size_le hle) }

theorem Gains.admits {c : VarRef} (hg : h.Gains h' c) : h.Admits h' :=
  { hg.extends with
    late := by
      rintro v c' ls hv ⟨ks, hk, hl⟩
      rcases hg.unbound hv with hv' | hv'
      · rw [hv'] at hk
        cases hk
        exact .inl hl
      · rw [hv'] at hk
        cases hk
        rcases List.mem_append.mp hl with hl | hl
        · exact .inl hl
        · cases List.mem_singleton.mp hl
          rw [hg.fresh]
          exact .inr (Nat.le_refl _) }

/-- What a node leads to stays the same. -/
theorem Admits.deref (ha : h.Admits h') {n d : Node} (hd : h.deref n = .ok d) :
    h'.deref n = .ok d :=
  ha.toGrows.keeps ha.stays hd

/-- A list of listeners is only added to. -/
theorem Admits.cell (ha : h.Admits h') {v : VarRef} {ls : List Listener}
    (hv : h.cell v = .ok (.unbound ls)) : ∃ ms, h'.cell v = .ok (.unbound (ls ++ ms)) := by
  obtain ⟨ls', hv'⟩ := ha.stays hv
  rcases ha.unbound hv with hms | ⟨x, hx⟩
  · exact hms
  · rw [hv'] at hx
    cases hx

/-- A control of the first heap listens to what it listened to. -/
theorem Admits.listens_iff (ha : h.Admits h') {v c : VarRef} {ls ms : List Listener} {cell : Cell}
    (hc : h.cell c = .ok cell) (hv : h.cell v = .ok (.unbound ls))
    (hv' : h'.cell v = .ok (.unbound (ls ++ ms))) :
    .control c ∈ ls ++ ms ↔ .control c ∈ ls := by
  constructor
  · intro hl
    rcases ha.late hv ⟨_, hv', hl⟩ with hmem | hle
    · exact hmem
    · exact absurd (lt_of_cell hc) (Nat.not_lt.mpr hle)
  · exact fun hl => List.mem_append_left ms hl

end Heap

namespace Machine

variable {m m' last : Machine}

/-! ### Finding a control again -/

/-- Whether a control of the first machine listens to all of the variables does not change. -/
theorem listensToAll_admits (ha : m.heap.Admits m'.heap) {c : VarRef} {cell : Cell}
    (hc : m.heap.cell c = .ok cell) {vs : List VarRef}
    (hvs : ∀ v ∈ vs, ∃ ls, m.heap.cell v = .ok (.unbound ls)) :
    m'.listensToAll (.control c) vs = m.listensToAll (.control c) vs := by
  induction vs with
  | nil => rfl
  | cons v vs ih =>
    obtain ⟨ls, hv⟩ := hvs v (List.mem_cons_self ..)
    obtain ⟨ms, hv'⟩ := ha.cell hv
    have hiff := ha.listens_iff hc hv hv'
    have hrest := ih fun w hw => hvs w (List.mem_cons_of_mem _ hw)
    simp only [listensToAll, Survey.listeners_of_unbound hv, Survey.listeners_of_unbound hv',
      ok_bind, hiff, hrest]

/-- The search for a control goes through the listeners of the first machine with the same result,
    and goes on to the new listeners only if it found none. -/
theorem pendingControl?_admits (hground : m.heap.Grounded) (ha : m.heap.Admits m'.heap)
    {others : List VarRef} {ls : List Listener} (ms : List Listener) {found : Option VarRef}
    (hls : ∀ c, .control c ∈ ls → ∃ cell, m.heap.cell c = .ok cell)
    (hothers : ∀ v ∈ others, ∃ ks, m.heap.cell v = .ok (.unbound ks))
    (hfound : m.pendingControl? others ls = .ok found) :
    m'.pendingControl? others (ls ++ ms) =
      found.elim (m'.pendingControl? others ms) fun c => .ok (some c) := by
  -- along the old list: an old control answers as before, so the first that answers stays the first
  induction ls with
  | nil =>
    cases hfound
    rfl
  | cons l rest ih =>
    have hrest : ∀ c, .control c ∈ rest → ∃ cell, m.heap.cell c = .ok cell :=
      fun c hc => hls c (List.mem_cons_of_mem _ hc)
    rw [List.cons_append]
    cases l with
    | thread id => exact ih hrest hfound
    | control c =>
      obtain ⟨cell, hcell⟩ := hls c (List.mem_cons_self ..)
      obtain ⟨d, hd⟩ := hground hcell
      have hdet : m.isDetermined (.variable c) = .ok d.asVariable?.isNone := Heap.isDetermined_eq hd
      have hdet' : m'.isDetermined (.variable c) = .ok d.asVariable?.isNone :=
        Heap.isDetermined_eq (ha.deref hd)
      rw [pendingControl?, hdet, ok_bind] at hfound
      rw [pendingControl?, hdet', ok_bind, listensToAll_admits ha hcell hothers]
      cases hv : d.asVariable?.isNone with
      | true =>
        rw [hv, if_pos rfl] at hfound
        rw [if_pos rfl]
        exact ih hrest hfound
      | false =>
        rw [hv, if_neg (by simp)] at hfound
        rw [if_neg (by simp)]
        obtain ⟨all, hall, hfound⟩ := bind_eq_ok.mp hfound
        rw [hall, ok_bind]
        cases all with
        | true =>
          cases hfound
          rfl
        | false =>
          rw [if_neg (by simp)] at hfound ⊢
          exact ih hrest hfound

/-- A new control is found at once: it has no value, and listens to all of the variables. -/
theorem pendingControl?_fresh {c : VarRef} {ks ms : List Listener} {others : List VarRef}
    (hc : m.heap.cell c = .ok (.unbound ks))
    (hothers : ∀ v ∈ others, m.heap.Listens (.control c) v) :
    m.pendingControl? others (.control c :: ms) = .ok (some c) := by
  obtain ⟨all, hall, htrue⟩ := listensToAll_ok (l := .control c) fun v hv => (hothers v hv).unbound
  have hdet : m.isDetermined (.variable c) = .ok false := Heap.isDetermined_unbound hc
  rw [pendingControl?, hdet, ok_bind, hall, htrue hothers]
  rfl

/-- Whatever a wait for one of many variables comes to, it comes to the same variable again as long
    as no variable is bound, and changes nothing. -/
theorem waitForAny_again (hs : m.Steady) {vs : List VarRef} {c : VarRef}
    (hvs : ∀ v ∈ vs, ∃ ls, m.heap.cell v = .ok (.unbound ls))
    (hw : m.waitForAny vs = .ok (c, last)) (ha : last.heap.Admits m'.heap) :
    m'.waitForAny vs = .ok (c, m') := by
  match vs, hw with
  | [], hw => cases hw
  | [v], hw =>
    cases hw
    rfl
  | v :: v' :: vs, hw =>
    obtain ⟨ls, hv⟩ := hvs v (List.mem_cons_self ..)
    have hothers : ∀ w ∈ v' :: vs, ∃ ks, m.heap.cell w = .ok (.unbound ks) :=
      fun w hw => hvs w (List.mem_cons_of_mem _ hw)
    have hcontrols : ∀ c, .control c ∈ ls → ∃ cell, m.heap.cell c = .ok cell :=
      fun c hc => hs.control ⟨v, ls, hv, hc⟩
    rw [waitForAny.eq_3 _ _ _ (by simp), Survey.listeners_of_unbound hv, ok_bind] at hw
    obtain ⟨found, hfound, hw⟩ := bind_eq_ok.mp hw
    cases found with
    | some c' =>
      -- the control was found, so it is found again
      cases hw
      obtain ⟨ms, hv'⟩ := ha.cell hv
      have hagain := pendingControl?_admits hs.grounded ha ms hcontrols hothers hfound
      rw [waitForAny.eq_3 _ _ _ (by simp), Survey.listeners_of_unbound hv', ok_bind, hagain]
      rfl
    | none =>
      -- the control is new: those before it in the list do not match later either
      obtain ⟨after, hadded, hw⟩ := bind_eq_ok.mp hw
      have hl : m.newVariable.2.listenTo (.control m.newVariable.1) (v :: v' :: vs) = .ok after :=
        hadded
      have hpair : (m.newVariable.1, after) = (c, last) := Except.ok.inj hw
      obtain ⟨rfl, rfl⟩ := Prod.mk.inj hpair
      have hg₀ : m.heap.Gains m.newVariable.2.heap m.newVariable.1 := Heap.gains_allocateVariable _
      obtain ⟨heap, hl', hg⟩ := listenTo_gains hg₀ hvs
      rw [hl] at hl'
      cases hl'
      have hfresh : m.newVariable.2.heap.cell m.newVariable.1 = .ok (.unbound []) := hg₀.cell
      obtain ⟨-, -, -, hlistens⟩ := listenTo_spec (m := m.newVariable.2) hfresh
        (fun w hw => (hvs w hw).imp fun _ hc => Heap.cell_allocateVariable_of_ok hc) hl
      have hlast : heap.cell v = .ok (.unbound (ls ++ [.control m.newVariable.1])) := by
        rcases hg.unbound hv with hsame | hadded
        · obtain ⟨ks, hk, hmem⟩ := hlistens v (List.mem_cons_self ..)
          obtain rfl : ls = ks := by simpa using hsame.symm.trans hk
          obtain ⟨cell, hcell⟩ := hcontrols _ hmem
          exact absurd hcell Heap.cell_fresh
        · exact hadded
      obtain ⟨ms, hv'⟩ := ha.cell hlast
      obtain ⟨ks, hc'⟩ := ha.cell hg.cell
      have hothers' : ∀ w ∈ v' :: vs, m'.heap.Listens (.control m.newVariable.1) w := by
        intro w hw
        have hl := hlistens w (List.mem_cons_of_mem _ hw)
        obtain ⟨ks, hk⟩ := hl.unbound
        obtain ⟨ks', hk'⟩ := ha.cell hk
        exact ha.toGrows.listens hl hk'
      have hagain := pendingControl?_admits hs.grounded (hg.admits.trans ha)
        (.control m.newVariable.1 :: ms) hcontrols hothers hfound
      rw [waitForAny.eq_3 _ _ _ (by simp), Survey.listeners_of_unbound hv', ok_bind,
        List.append_assoc, List.singleton_append, hagain]
      rw [Option.elim_none, pendingControl?_fresh hc' hothers']
      rfl

/-! ### Calls that bind nothing -/

/-- A builtin is called, on any operands and with any outcome, and no variable is bound. -/
def Asks (m m' : Machine) : Prop :=
  (∃ b operands o, m.call b operands = .ok (o, m')) ∧
    ∀ v ls, m.heap.cell v = .ok (.unbound ls) → ∃ ls', m'.heap.cell v = .ok (.unbound ls')

theorem Prolongs.admits (hp : m.Prolongs m') : m.heap.Admits m'.heap := by
  have hcells : m'.heap.cells = m.heap.cells := by
    obtain ⟨contents, records, -, rfl⟩ := hp
    rfl
  exact
    { hp.extends with
      late := by
        rintro v c ls hv ⟨ks, hk, hl⟩
        rw [Heap.cell_congr hcells, hv] at hk
        cases hk
        exact .inl hl }

/-- A cascade that binds nothing leaves all lists as they are. -/
theorem Cascade.admits {ids : List ThreadId} (hc : Cascade m m' ids)
    (hstays : ∀ v ls, m.heap.cell v = .ok (.unbound ls) →
      ∃ ls', m'.heap.cell v = .ok (.unbound ls')) :
    m.heap.Admits m'.heap :=
  { hc.grows with
    stays := fun hv => hstays _ _ hv
    late := by
      rintro v c ls hv ⟨ks, hk, hl⟩
      rw [hc.unbound_before hk] at hv
      cases hv
      exact .inl hl }

/-- Whatever a call comes to, if it binds nothing it lets only new controls listen. -/
theorem admits_ends (hm : Reachable m) (b : Builtin) :
    m.Ends b fun _ m' =>
      (∀ v ls, m.heap.cell v = .ok (.unbound ls) → ∃ ls', m'.heap.cell v = .ok (.unbound ls')) →
        m.heap.Admits m'.heap where
  canonical := hm.canonical
  proceed _ _ := .refl _
  suspend _ _ _ := .refl _
  raise kind _ _ := (prolongs_making.newException (.refl m) kind fun _ _ => trivial).1.admits
  typeError expected n _ := by
    obtain ⟨e, last, he, hp⟩ := prolongs_typeError m expected n
    rw [he]
    exact hp.admits
  bind _ v x m' hb hstays := by
    obtain ⟨ids, hc, -⟩ := cascade_of_bind hm.waits.nodup hb
    exact hc.admits hstays
  wait _ vs c m' hne hvs hwait _ := by
    obtain ⟨c', last, hw, hcases⟩ :=
      waitForAny_completes hm.waits.steady hne fun v hv => Heap.cell_of_deref (hvs v hv)
    rw [hw] at hwait
    cases hwait
    rcases hcases with ⟨rfl, -⟩ | ⟨heap, rfl, hg⟩
    · exact .refl _
    · exact hg.admits
  shows _ _ _ := .refl _

theorem admits_of_asks (hm : Reachable m) (hasks : ReflTransGen Asks m m') :
    Reachable m' ∧ m.heap.Admits m'.heap := by
  induction hasks with
  | refl => exact ⟨hm, .refl _⟩
  | tail _ hstep ih =>
    obtain ⟨hm₁, ha⟩ := ih
    obtain ⟨⟨b, operands, o, hc⟩, hstays⟩ := hstep
    exact ⟨hm₁.step (.call b operands hc), ha.trans ((admits_ends hm₁ b).call hc hstays)⟩

/-! ### The first field that has a value -/

/-- The field is determined, and no field with a smaller feature is. -/
structure LeastDetermined (m : Machine) (r : Record) (f : Feature) (x : Node) : Prop where
  field : (f, x) ∈ r.features.zip r.fields
  determined : m.isDetermined x = .ok true
  least : ∀ e ∈ r.features.zip r.fields, e.1.compare f = .lt → m.isDetermined e.2 = .ok false

/-- The search for a determined field stops at the first one. -/
theorem firstDetermined_eq_inl {entries : List (Feature × Node)} {f : Feature}
    (hf : m.firstDetermined entries = .ok (.inl f)) :
    ∃ before x after, entries = before ++ (f, x) :: after ∧
      (∀ e ∈ before, m.isDetermined e.2 = .ok false) ∧ m.isDetermined x = .ok true := by
  induction entries with
  | nil => cases hf
  | cons e rest ih =>
    obtain ⟨g, n⟩ := e
    rw [firstDetermined] at hf
    obtain ⟨d, hd, hf⟩ := bind_eq_ok.mp hf
    have hdet : m.isDetermined n = .ok d.asVariable?.isNone := Heap.isDetermined_eq hd
    -- a free field is passed over, and the search goes on behind it
    cases d with
    | «variable» v =>
      obtain ⟨found, hrest, hf⟩ := bind_eq_ok.mp hf
      cases found with
      | inr vs => cases hf
      | inl g' =>
        cases hf
        obtain ⟨before, x, after, rfl, hbefore, hx⟩ := ih hrest
        refine ⟨(g, n) :: before, x, after, rfl, ?_, hx⟩
        intro e he
        rcases List.mem_cons.mp he with rfl | he
        · exact hdet
        · exact hbefore e he
    | _ =>
      cases hf
      exact ⟨[], n, rest, rfl, by simp, hdet⟩

/-- Features ascend, so the first field that is determined is the one with the least feature. -/
theorem leastDetermined_of_firstDetermined {r : Record} (hr : r.Canonical) {f : Feature}
    (hf : m.firstDetermined (r.features.zip r.fields) = .ok (.inl f)) :
    ∃ x, m.LeastDetermined r f x := by
  obtain ⟨before, x, after, hsplit, hbefore, hx⟩ := firstDetermined_eq_inl hf
  have hasc := List.pairwise_map.mp hr.ascending_zip
  rw [hsplit] at hasc
  have hafter := (List.pairwise_cons.mp (List.pairwise_append.mp hasc).2.1).1
  refine ⟨x, by simp [hsplit], hx, fun e he hlt => ?_⟩
  rw [hsplit] at he
  rcases List.mem_append.mp he with he | he
  · exact hbefore e he
  · rcases List.mem_cons.mp he with rfl | he
    · exact absurd hlt (OrientedCmp.not_lt_of_lt hlt)
    · exact absurd hlt (OrientedCmp.not_lt_of_lt (hafter e he))

/-- A field can be selected by the feature that it stands beside. -/
theorem dot_field {n x : Node} {ref : RecordRef} {r : Record} {f : Feature} (hr : r.Canonical)
    (hd : m.heap.deref n = .ok (.record ref)) (href : m.heap.record ref = .ok r)
    (hx : (f, x) ∈ r.features.zip r.fields) : m.dot n f.toNode = .ok (.proceed [x], m) := by
  have hlookup : r.lookup f = some x := by
    rw [Record.lookup_eq_search, Record.search_eq_some_iff hr.distinct]
    exact ⟨f, hx, ReflCmp.compare_self⟩
  have hf : m.deref f.toNode = .ok f.toNode := Heap.deref_of_value f.asVariable?_toNode
  rw [dot, withReceiver_receiver (.record ref) hd, hf, ok_bind, Feature.asFeature?_toNode]
  -- a feature is no variable, whichever it is
  rcases f with i | a | b | _
  all_goals
    simp only [Feature.toNode, Literal.toNode, href, ok_bind, hlookup]
    rfl

/-! ### A bind of a field -/

/-- A bind of a variable that a control listens to gives the control a value, unless the variable is
    bound to itself, which changes nothing. -/
theorem bind_serves (hs : m.Steady) {c u v : VarRef} {y : Node} (hl : m.heap.Listens (.control c) v)
    (hu : m.deref (.variable u) = .ok (.variable v)) (hy : m.heap.InRange y) :
    ∃ m', m.bind u y = .ok (.ok m') ∧
      (m.deref y = .ok (.variable v) ∧ m' = m ∨ m'.isDetermined (.variable c) = .ok true) := by
  obtain ⟨d, hd⟩ := hs.deref hy
  obtain ⟨m', hb⟩ := bind_completes hs hu hd
  refine ⟨m', hb, ?_⟩
  by_cases hself : m.deref y = .ok (.variable v)
  · rw [bind, bindWithin_self hu hself] at hb
    cases hb
    exact .inl ⟨hself, rfl⟩
  · obtain ⟨ls, hv, hmem⟩ := hl
    obtain ⟨ids, hc, -⟩ := cascade_of_bind hs.nodup hb
    obtain ⟨hbound, -⟩ := cell_of_summoned hs.nodup hu hself hb
    exact .inr (hc.served hv hbound hmem)

/-! ### Picking, parking and trying again -/

/-- How a call on the record that waits for one of many fields has suspended on `c`. -/
structure Parks (m : Machine) (n : Node) (r : Record) (c : VarRef) (m' : Machine) : Prop where
  /-- The only field is waited for itself, and nothing has changed. -/
  single {x : Node} : r.fields = [x] → m.deref x = .ok (.variable c) ∧ m' = m
  /-- One of many fields is waited for by a control that listens to all of them. A bind of any of
      them gives it a value, unless the field is bound to itself, which changes nothing. -/
  many : 2 ≤ r.fields.length → ∀ x ∈ r.fields, ∃ v,
    m.deref x = .ok (.variable v) ∧ m'.heap.Listens (.control c) v ∧
      ∀ u y, m'.deref (.variable u) = .ok (.variable v) → m'.heap.InRange y →
        ∃ after, m'.bind u y = .ok (.ok after) ∧
          (m'.deref y = .ok (.variable v) ∧ after = m' ∨
            after.isDetermined (.variable c) = .ok true)
  /-- After any calls that bind nothing, the call suspends on `c` again and changes nothing. -/
  again {after : Machine} : ReflTransGen Asks m' after →
    after.call .waitOr [n] = .ok (.suspend c, after)

theorem parks_of_waitForAny (hm : Reachable m) {n : Node} {ref : RecordRef} {r : Record}
    {vs : List VarRef} {c : VarRef} (hd : m.heap.deref n = .ok (.record ref))
    (href : m.heap.record ref = .ok r)
    (hfirst : m.firstDetermined (r.features.zip r.fields) = .ok (.inr vs))
    (hwait : m.waitForAny vs = .ok (c, m')) : m.Parks n r c m' := by
  have hfields := fields_of_firstDetermined (hm.waits.balanced href) hfirst
  have hvs : ∀ v ∈ vs, ∃ ls, m.heap.cell v = .ok (.unbound ls) := by
    intro v hv
    obtain ⟨x, -, hx⟩ := exists_of_forall₂_right hfields hv
    exact Heap.cell_of_deref hx
  have hcall : m.call .waitOr [n] = .ok (.suspend c, m') := waitOr_suspends hd href hfirst hwait
  -- making the call is itself one of the calls that may come in between
  have hasked : Asks m m' :=
    ⟨⟨_, _, _, hcall⟩, fun v ls hv => (hm.attempt hcall nofun).uncommitted.heap.stays hv⟩
  obtain ⟨hm', ha⟩ := admits_of_asks hm (.single hasked)
  refine ⟨fun {x} hx => ?_, fun hlen x hx => ?_, fun {after} hasks => ?_⟩
  · rw [hx] at hfields
    obtain ⟨v, ws, hxv, hnil, rfl⟩ := List.forall₂_cons_left_iff.mp hfields
    cases List.forall₂_nil_left_iff.mp hnil
    cases hwait
    exact ⟨hxv, rfl⟩
  · rcases waitForAny_cases hvs hwait with ⟨rfl, -⟩ | ⟨-, -, -, hlistens⟩
    · rw [hfields.length_eq] at hlen
      exact absurd hlen (by simp)
    · obtain ⟨v, hv, hxv⟩ := exists_of_forall₂_left hfields hx
      refine ⟨v, hxv, hlistens v hv, fun u y hu hy => ?_⟩
      exact bind_serves hm'.waits.steady (hlistens v hv) hu hy
  · obtain ⟨-, ha'⟩ := admits_of_asks hm' hasks
    have hall : m.heap.Admits after.heap := ha.trans ha'
    have hfirst' : after.firstDetermined (r.features.zip r.fields) = .ok (.inr vs) :=
      firstDetermined_eq_inr.mpr ((firstDetermined_eq_inr.mp hfirst).imp fun _ _ h => hall.deref h)
    exact waitOr_suspends (hall.deref hd) (hall.record href) hfirst'
      (waitForAny_again hm.waits.steady hvs hwait ha')

/-- The search for a determined field goes through, if all fields lie in the heap. -/
theorem firstDetermined_completes (hs : m.Steady) {entries : List (Feature × Node)}
    (hin : ∀ e ∈ entries, m.heap.InRange e.2) : ∃ found, m.firstDetermined entries = .ok found := by
  induction entries with
  | nil => exact ⟨_, rfl⟩
  | cons e rest ih =>
    obtain ⟨f, x⟩ := e
    obtain ⟨d, hd⟩ := hs.deref (hin _ (List.mem_cons_self ..))
    obtain ⟨found, hfound⟩ := ih fun e he => hin e (List.mem_cons_of_mem _ he)
    have hd' : m.deref x = .ok d := hd
    rw [firstDetermined, hd', ok_bind, hfound]
    cases d with
    | «variable» v => cases found <;> exact ⟨_, rfl⟩
    | _ => exact ⟨_, rfl⟩

/-- The call on a record goes on with the search for a determined field. -/
theorem waitOr_record {n : Node} {ref : RecordRef} {r : Record}
    (hd : m.heap.deref n = .ok (.record ref)) (href : m.heap.record ref = .ok r) :
    m.waitOr n = (do
      match ← m.firstDetermined (r.features.zip r.fields) with
      | .inl f => return (.proceed [f.toNode], m)
      | .inr vs =>
        let (v, m) ← m.waitForAny vs
        return (.suspend v, m)) := by
  rw [waitOr, withReceiver_receiver (.record ref) hd]
  dsimp only
  rw [href]
  rfl

/-- A record without a determined field has a field to wait for. -/
theorem ne_nil_of_firstDetermined {r : Record} (hr : r.Canonical) {vs : List VarRef}
    (hfirst : m.firstDetermined (r.features.zip r.fields) = .ok (.inr vs)) : vs ≠ [] := by
  rintro rfl
  have hfields := fields_of_firstDetermined hr.balanced hfirst
  exact hr.nonempty (List.forall₂_nil_right_iff.mp hfields)

/-- Waiting for one field of many, in a reachable machine. The call returns if the fields lie in the
    heap. Whenever it returns, either a field is determined, and it proceeds with the least feature
    of these, at which the field can be selected; or none is, and it has suspended on the only field,
    or on a control that listens to all fields and that it finds again. -/
theorem Reachable.waitOr_picks_or_parks (hm : Reachable m) {n : Node} {ref : RecordRef} {r : Record}
    (hd : m.deref n = .ok (.record ref)) (href : m.heap.record ref = .ok r) :
    ((∀ x ∈ r.fields, m.heap.InRange x) → ∃ o m', m.call .waitOr [n] = .ok (o, m')) ∧
    ∀ o m', m.call .waitOr [n] = .ok (o, m') →
      (∃ f x, m.LeastDetermined r f x ∧ o = .proceed [f.toNode] ∧ m' = m ∧
        m.call .dot [n, f.toNode] = .ok (.proceed [x], m)) ∨
      ((∀ x ∈ r.fields, m.isDetermined x = .ok false) ∧
        ∃ c, o = .suspend c ∧ m.Parks n r c m') := by
  have hr : r.Canonical := hm.canonical href
  have hcall : m.call .waitOr [n] = m.waitOr n := rfl
  -- all rests on the search for a field that has a value
  rw [hcall, waitOr_record hd href]
  constructor
  · intro hin
    obtain ⟨found, hfound⟩ := firstDetermined_completes hm.waits.steady
      fun e he => hin e.2 (List.of_mem_zip he).2
    rw [hfound, ok_bind]
    cases found with
    | inl f => exact ⟨_, _, rfl⟩
    -- without such a field the call parks, on one of the variables found or on a control
    | inr vs =>
      have hfields := fields_of_firstDetermined hr.balanced hfound
      obtain ⟨c, m', hw, -⟩ := waitForAny_completes hm.waits.steady
        (ne_nil_of_firstDetermined hr hfound) fun v hv => by
          obtain ⟨x, -, hx⟩ := exists_of_forall₂_right hfields hv
          exact Heap.cell_of_deref hx
      refine ⟨.suspend c, m', ?_⟩
      dsimp only
      rw [hw]
      rfl
  · intro o m' hc
    obtain ⟨found, hfound, hc⟩ := bind_eq_ok.mp hc
    cases found with
    | inl f =>
      cases hc
      obtain ⟨x, hx⟩ := leastDetermined_of_firstDetermined hr hfound
      exact .inl ⟨f, x, hx, rfl, rfl, dot_field hr hd href hx.field⟩
    | inr vs =>
      obtain ⟨⟨c, last⟩, hw, hc⟩ := bind_eq_ok.mp hc
      cases hc
      refine .inr ⟨fun x hx => ?_, c, rfl, parks_of_waitForAny hm hd href hfound hw⟩
      obtain ⟨v, -, hxv⟩ := exists_of_forall₂_left (fields_of_firstDetermined hr.balanced hfound) hx
      exact Heap.isDetermined_eq hxv

/-- The machine with two free fields, after a call that waits for one of them. -/
def parked : Machine :=
  { undecided with
    heap := { undecided.heap with
      cells := #[.unbound [.control ⟨2⟩], .unbound [.control ⟨2⟩], .unbound []]
      allocated := 4 } }

/-- Two free fields are waited for through a control, and after another call has failed through the
    same one. A bind of the second field gives the control a value, and the call proceeds. -/
theorem undecided_picks_or_parks : ∃ o m₁ after x,
    undecided.call .waitOr [.record ⟨0⟩] = .ok (.suspend ⟨2⟩, parked) ∧
    parked.call .dot [.record ⟨0⟩, .int 3] = .ok (o, m₁) ∧
    m₁.call .waitOr [.record ⟨0⟩] = .ok (.suspend ⟨2⟩, m₁) ∧
    parked.bind ⟨1⟩ (.int 5) = .ok (.ok after) ∧ after.isDetermined (.variable ⟨2⟩) = .ok true ∧
    after.call .waitOr [.record ⟨0⟩] = .ok (.proceed [.int 2], after) ∧
    after.call .dot [.record ⟨0⟩, .int 2] = .ok (.proceed [x], after) ∧
    after.isDetermined x = .ok true := by
  have hc : undecided.call .waitOr [.record ⟨0⟩] = .ok (.suspend ⟨2⟩, parked) := rfl
  have hparked : Reachable parked := reachable_undecided.step (.call .waitOr [.record ⟨0⟩] hc)
  obtain ⟨-, hcases⟩ := reachable_undecided.waitOr_picks_or_parks (n := .record ⟨0⟩) rfl rfl
  rcases hcases _ _ hc with ⟨f, x, -, ho, -⟩ | ⟨-, c, ho, hparks⟩
  · cases ho
  cases ho
  -- the call in between raises an exception, so it has bound nothing
  obtain ⟨e, m₁, hdot⟩ : ∃ e m₁, parked.call .dot [.record ⟨0⟩, .int 3] = .ok (.raise e, m₁) :=
    ⟨_, _, rfl⟩
  have hasks : Asks parked m₁ :=
    ⟨⟨_, _, _, hdot⟩, fun v ls hv => (hparked.attempt hdot nofun).uncommitted.heap.stays hv⟩
  obtain ⟨v, hv, -, hbind⟩ := hparks.many (by decide) (.variable ⟨1⟩) (by decide)
  cases hv
  obtain ⟨after, hb, ⟨hself, -⟩ | hdet⟩ := hbind ⟨1⟩ (.int 5) rfl trivial
  · cases hself
  have hafter : Reachable after := hparked.step (.bind ⟨1⟩ (.int 5) hb)
  have hproceeds : after.call .waitOr [.record ⟨0⟩] = .ok (.proceed [.int 2], after) := by
    cases hb
    rfl
  obtain ⟨-, hcases'⟩ := hafter.waitOr_picks_or_parks (n := .record ⟨0⟩) (by cases hb; rfl)
    (r := ⟨.unit, .tuple, [.variable ⟨0⟩, .variable ⟨1⟩]⟩) (by cases hb; rfl)
  rcases hcases' _ _ hproceeds with ⟨f, x, hleast, ho, -, hselects⟩ | ⟨-, c, ho, -⟩
  · obtain ⟨hf, -⟩ := List.cons.inj (Outcome.proceed.inj ho)
    rw [← hf] at hselects
    exact ⟨_, m₁, after, x, hc, hdot, hparks.again (.single hasks), hb, hdet, hproceeds, hselects,
      hleast.determined⟩
  · cases ho

/-- A field that is bound to itself stays free, and so does the control that listens to it. -/
theorem self_bind_leaves_control_free : Reachable undecided ∧
    undecided.call .waitOr [.record ⟨0⟩] = .ok (.suspend ⟨2⟩, parked) ∧
    parked.heap.Listens (.control ⟨2⟩) ⟨0⟩ ∧ parked.bind ⟨0⟩ (.variable ⟨0⟩) = .ok (.ok parked) ∧
    parked.isDetermined (.variable ⟨2⟩) = .ok false :=
  ⟨reachable_undecided, rfl, ⟨_, rfl, List.mem_cons_self ..⟩, rfl, rfl⟩

end Machine

end Dataflow
