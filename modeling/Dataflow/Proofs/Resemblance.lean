import Mathlib.Logic.Relation
import Dataflow.Proofs.Moving

/-! # Values that cannot be told apart

  Two machines that have let the same threads run in different orders hold the same values, but have
  built them at different times: what is one record here may be two records there. Two nodes
  *resemble* each other if some faithful world relates them, which need not be one to one. There is a
  largest faithful world for every relation `β` between the variables without a value, and so what
  resembles each other can be read on both sides, part by part.

  Main statement: nodes that resemble each other still do when both heaps grow, when one machine
  collects its garbage, and from one pair of machines to the next.
-/

namespace Dataflow

variable {w w₁ : World} {a b c a₁ b₁ : View} {β β₁ γ : VarRef → VarRef → Prop} {m m' : Machine}
  {n n' : Node}

/-! ### The largest faithful world -/

/-- The world that relates all records that a faithful world relates, for variables related by
    `β`. -/
def resemblance (β : VarRef → VarRef → Prop) (a b : View) : World where
  record r r' := ∃ w : World, w.Faithful a b ∧ (∀ v v', w.var v v' → β v v') ∧ w.record r r'
  var := β
  control _ _ := False

/-- Two nodes cannot be told apart, except by variables that `β` does not relate. -/
def Resembles (β : VarRef → VarRef → Prop) (a b : View) (n n' : Node) : Prop :=
  Alike (resemblance β a b) a b n n'

/-- What a faithful world relates resembles each other. -/
theorem Alike.resembles (hn : Alike w a b n n') (hw : w.Faithful a b)
    (hvar : ∀ v v', w.var v v' → β v v') : Resembles β a b n n' := by
  have hrecord : ∀ r r', w.record r r' → (resemblance β a b).record r r' :=
    fun r r' hr => ⟨w, hw, hvar, hr⟩
  obtain ⟨d, d', hd, hd', hm⟩ := hn
  exact ⟨d, d', hd, hd', hm.mono hrecord hvar rfl rfl⟩

theorem faithful_resemblance (β : VarRef → VarRef → Prop) (a b : View) :
    (resemblance β a b).Faithful a b := by
  intro r r' hr
  obtain ⟨w, hw, hvar, hr⟩ := hr
  obtain ⟨s, s', hs, hs', hss⟩ := hw r r' hr
  exact ⟨s, s', hs, hs', hss.imp fun n n' hn => hn.resembles hw hvar⟩

theorem Resembles.print (hn : Resembles β a b n n') (depth : Nat) :
    a.heap.print depth n = b.heap.print depth n' :=
  (faithful_resemblance β a b).print depth hn

/-! ### Heaps that grow -/

/-- What has a value keeps it when the heaps grow, whichever variables are related by then. -/
theorem Matches.grow (ha : a₁.table = a.table) (hb : b₁.table = b.table)
    (hga : a.heap.Grows a₁.heap) (hgb : b.heap.Grows b₁.heap) {d d' : Node}
    (hd : a.heap.deref n = .ok d) (hd' : b.heap.deref n' = .ok d') (hm : Matches w a b d d')
    (hvalue : d.asVariable? = none) : Alike { w with var := β } a₁ b₁ n n' := by
  have hleft : a₁.heap.deref n = .ok d := hga.deref_value hd hvalue
  have hright : d'.asVariable? = none → b₁.heap.deref n' = .ok d' := hgb.deref_value hd'
  cases hm with
  | atom content => exact ⟨_, _, hleft, hright rfl, matches_atom ha.symm hb.symm content⟩
  | int i => exact ⟨_, _, hleft, hright rfl, .int i⟩
  | float x => exact ⟨_, _, hleft, hright rfl, .float x⟩
  | bool x => exact ⟨_, _, hleft, hright rfl, .bool x⟩
  | unit => exact ⟨_, _, hleft, hright rfl, .unit⟩
  | record hr => exact ⟨_, _, hleft, hright rfl, .record hr⟩
  | «variable» hv => cases hvalue

/-- The heaps have grown, and related variables are related again or have been given values that
    resemble each other. -/
theorem Resembles.grow (ha : a₁.table = a.table) (hb : b₁.table = b.table)
    (hga : a.heap.Grows a₁.heap) (hgb : b.heap.Grows b₁.heap)
    (hvar : ∀ v v', β v v' → a.heap.deref (.variable v) = .ok (.variable v) →
      b.heap.deref (.variable v') = .ok (.variable v') →
      Alike { resemblance β a b with var := β₁ } a₁ b₁ (.variable v) (.variable v'))
    (hn : Resembles β a b n n') : Resembles β₁ a₁ b₁ n n' := by
  have hnode : ∀ n n', Resembles β a b n n' →
      Alike { resemblance β a b with var := β₁ } a₁ b₁ n n' := by
    intro n n' hn
    obtain ⟨d, d', hd, hd', hm⟩ := hn
    rcases d.value_or_variable with hvalue | ⟨v, rfl⟩
    · exact hm.grow ha hb hga hgb hd hd' hvalue
    · cases hm with
      | «variable» hv =>
        obtain ⟨e, e', he, he', hm⟩ := hvar _ _ hv (Heap.deref_deref hd) (Heap.deref_deref hd')
        exact ⟨e, e', (hga.deref hd).trans he, (hgb.deref hd').trans he', hm⟩
  refine (hnode n n' hn).resembles ?_ fun v v' hv => hv
  intro r r' hr
  obtain ⟨s, s', hs, hs', hss⟩ := faithful_resemblance β a b r r' hr
  exact ⟨s, s', hga.record hs, hgb.record hs', hss.imp hnode⟩

/-- Both heaps have grown, and no variable has been given a value. -/
theorem Resembles.extend (ha : a₁.table = a.table) (hb : b₁.table = b.table)
    (hea : a.heap.Extends a₁.heap) (heb : b.heap.Extends b₁.heap)
    (hβ : ∀ v v', β v v' → β₁ v v') (hn : Resembles β a b n n') : Resembles β₁ a₁ b₁ n n' := by
  apply hn.grow ha hb hea.toGrows heb.toGrows
  intro v v' hv hd hd'
  exact ⟨_, _, hea.keeps hea.stays hd, heb.keeps heb.stays hd', .variable (hβ v v' hv)⟩

/-! ### From one pair to the next -/

theorem World.Faithful.flip (hw : w.Faithful a b) : w.flip.Faithful b a := by
  intro r r' hr
  obtain ⟨s, s', hs, hs', hss⟩ := hw r' r hr
  exact ⟨s', s, hs', hs, hss.flip⟩

theorem Resembles.flip (hn : Resembles β a b n n') : Resembles (flip β) b a n' n :=
  Alike.flip hn |>.resembles (faithful_resemblance β a b).flip fun _ _ hv => hv

/-- One world after the other. -/
def World.comp (w w₁ : World) : World where
  record := Relation.Comp w.record w₁.record
  var := Relation.Comp w.var w₁.var
  control := Relation.Comp w.control w₁.control

theorem Matches.comp {d e f : Node} (hm : Matches w a b d e) (hm₁ : Matches w₁ b c e f) :
    Matches (w.comp w₁) a c d f := by
  cases hm with
  | atom content => cases hm₁; exact .atom content
  | int i => cases hm₁; exact .int i
  | float x => cases hm₁; exact .float x
  | bool x => cases hm₁; exact .bool x
  | unit => cases hm₁; exact .unit
  | record hr =>
    cases hm₁ with
    | record hr₁ => exact .record ⟨_, hr, hr₁⟩
  | «variable» hv =>
    cases hm₁ with
    | «variable» hv₁ => exact .variable ⟨_, hv, hv₁⟩

theorem Alike.comp {x y z : Node} (hxy : Alike w a b x y) (hyz : Alike w₁ b c y z) :
    Alike (w.comp w₁) a c x z := by
  obtain ⟨d, e, hd, he, hm⟩ := hxy
  obtain ⟨e', f, he', hf, hm₁⟩ := hyz
  rw [he] at he'
  cases he'
  exact ⟨d, f, hd, hf, hm.comp hm₁⟩

theorem RecordAlike.comp {r s t : Record} (hrs : RecordAlike w a b r s)
    (hst : RecordAlike w₁ b c s t) : RecordAlike (w.comp w₁) a c r t := by
  refine ⟨hrs.label.comp hst.label, ?_, ?_⟩
  · rcases hrs.arity with ⟨hr, hs⟩ | ⟨names, names', hr, hs, hn⟩
    · rcases hst.arity with ⟨-, ht⟩ | ⟨ms, ms', hs', -, -⟩
      · exact .inl ⟨hr, ht⟩
      · rw [hs] at hs'; cases hs'
    · rcases hst.arity with ⟨hs', -⟩ | ⟨ms, ms', hs', ht, hm⟩
      · rw [hs] at hs'; cases hs'
      · rw [hs] at hs'
        cases hs'
        exact .inr ⟨names, ms', hr, ht, forall₂_trans hn hm fun _ _ _ h h₁ => Matches.comp h h₁⟩
  · exact forall₂_trans hrs.fields hst.fields fun _ _ _ h h₁ => h.comp h₁

theorem World.Faithful.comp (hw : w.Faithful a b) (hw₁ : w₁.Faithful b c) :
    (w.comp w₁).Faithful a c := by
  intro r t hrt
  obtain ⟨s, hrs, hst⟩ := hrt
  obtain ⟨x, y, hx, hy, hxy⟩ := hw r s hrs
  obtain ⟨y', z, hy', hz, hyz⟩ := hw₁ s t hst
  rw [hy] at hy'
  cases hy'
  exact ⟨x, z, hx, hz, hxy.comp hyz⟩

theorem Resembles.trans {x y z : Node} (hxy : Resembles β a b x y) (hyz : Resembles γ b c y z) :
    Resembles (Relation.Comp β γ) a c x z := by
  have hw := (faithful_resemblance β a b).comp (faithful_resemblance γ b c)
  exact (Alike.comp hxy hyz).resembles hw fun _ _ hv => hv

/-! ### Collections -/

/-- The variables that are related once those of the machine have been moved by `φ`. -/
def movedBy (β : VarRef → VarRef → Prop) (m : Machine) (φ : Node → Node) (v v'' : VarRef) : Prop :=
  ∃ v', β v v' ∧ m.Live (.variable v') ∧ φ (.variable v') = .variable v''

theorem Resembles.moved {φ : Node → Node} (hr : Machine.Relocation m m' φ)
    (hn : Resembles β a m.view n n') (hlive : m.Live n') :
    Resembles (movedBy β m φ) a m'.view n (φ n') := by
  have hw := faithful_resemblance β a m.view
  exact (hw.alike_through hr hn hlive).resembles (hw.through hr) fun _ _ hv => hv

/-! ### Making nodes -/

/-- The world is faithful, and relates variables as `β` does. -/
def Resembling (β : VarRef → VarRef → Prop) (w : World) (m m' : Machine) : Prop :=
  w.Faithful m.view m'.view ∧ ∀ v v', w.var v v' → β v v'

theorem resembling_resemblance (β : VarRef → VarRef → Prop) (m m' : Machine) :
    Resembling β (resemblance β m.view m'.view) m m' :=
  ⟨faithful_resemblance β m.view m'.view, fun _ _ hv => hv⟩

theorem resembling_crafting (β : VarRef → VarRef → Prop) : Crafting (Resembling β) where
  intern hs content := by
    unfold Resembling
    rw [Machine.view_intern, Machine.view_intern]
    exact hs
  allocate hs r r' hr _ := by
    obtain ⟨hfaithful, hlater⟩ := hs.1.allocateRecord hr
    refine ⟨_, ⟨hfaithful, hs.2⟩, hlater, ?_⟩
    exact .of_value (.record (.inr ⟨rfl, rfl⟩)) rfl

/-- What is made of nodes that resemble each other resembles each other. -/
theorem MadeWith.resembles {r r' : Node × Machine} (hr : MadeWith (Resembling β) w m m' r r') :
    Resembles β r.2.view r'.2.view r.1 r'.1 := by
  obtain ⟨w₁, hs, -, hn⟩ := hr
  exact hn.resembles hs.1 hs.2

end Dataflow
