import Mathlib.Data.List.Nodup
import Dataflow.Heap.Deref

/-! # Dereferencing without a bound

  `Heap.deref` follows bound variables for as many steps as there are variables. A path that
  ends visits no variable twice, so the bound is never what stops it. From here on
  dereferencing is used through its equations at a value, at an unbound and at a bound
  variable, and through `Heap.deref_induct`, which goes along the path.
-/

namespace Dataflow

/-! ### Computations that may fault -/

/-- A sequence of two computations succeeds when both do. -/
theorem bind_eq_ok {ε α β : Type} {x : Except ε α} {f : α → Except ε β} {b : β} :
    (x >>= f) = .ok b ↔ ∃ a, x = .ok a ∧ f a = .ok b := by
  cases x with
  | error e => simp [bind, Except.bind]
  | ok a => simp [bind, Except.bind]

/-- A fault that no part of a computation has is not one of the whole. -/
theorem bind_ne_error {ε α β : Type} {x : Except ε α} {f : α → Except ε β} {e : ε}
    (hx : x ≠ .error e) (hf : ∀ a, x = .ok a → f a ≠ .error e) : (x >>= f) ≠ .error e := by
  cases x with
  | error e' =>
    intro he
    cases he
    exact hx rfl
  | ok a => exact hf a rfl

/-- A computation that does not have a fault may be continued in another way, if the two ways
    are the same wherever the first does not have the fault. -/
theorem bind_congr_of_ne {ε α β : Type} {x : Except ε α} {f g : α → Except ε β} {e : ε}
    (hx : (x >>= f) ≠ .error e) (hfg : ∀ a, f a ≠ .error e → g a = f a) :
    (x >>= g) = (x >>= f) := by
  cases x with
  | error e' => rfl
  | ok a => exact hfg a hx

@[simp] theorem pure_eq_ok {ε α : Type} {a b : α} :
    (pure a : Except ε α) = .ok b ↔ a = b := by
  simp [pure, Except.pure]

@[simp] theorem ok_bind {ε α β : Type} (a : α) (f : α → Except ε β) :
    ((.ok a : Except ε α) >>= f) = f a := rfl

@[simp] theorem error_bind {ε α β : Type} (e : ε) (f : α → Except ε β) :
    ((.error e : Except ε α) >>= f) = .error e := rfl

/-- A node is a variable or stands for itself. -/
theorem Node.value_or_variable (n : Node) : n.asVariable? = none ∨ ∃ v, n = .variable v := by
  cases n with
  | «variable» v => exact .inr ⟨v, rfl⟩
  | _ => exact .inl rfl

namespace Heap

variable {h : Heap}

/-! ### Paths through bound variables -/

/-- The node is not a bound variable. -/
def Stops (h : Heap) (e : Node) : Prop := ∀ v x, e = .variable v → h.cell v ≠ .ok (.bound x)

/-- Following bound variables from `n` visits `vs` and stops at `e`. -/
inductive Path (h : Heap) : Node → List VarRef → Node → Prop where
  | stop {e : Node} : h.Stops e → Path h e [] e
  | bound {v : VarRef} {x e : Node} {vs : List VarRef} :
      h.cell v = .ok (.bound x) → Path h x vs e → Path h (.variable v) (v :: vs) e

/-- A node has one path. -/
theorem Path.unique {n e e' : Node} {vs vs' : List VarRef} (hp : h.Path n vs e)
    (hp' : h.Path n vs' e') : vs = vs' ∧ e = e' := by
  induction hp generalizing vs' with
  | stop hs =>
    cases hp' with
    | stop _ => exact ⟨rfl, rfl⟩
    | bound hc _ => exact absurd hc (hs _ _ rfl)
  | bound hc _ ih =>
    cases hp' with
    | stop hs => exact absurd hc (hs _ _ rfl)
    | bound hc' hp' =>
      rw [hc] at hc'
      cases hc'
      obtain ⟨rfl, rfl⟩ := ih hp'
      exact ⟨rfl, rfl⟩

/-- From a variable on the path the rest of the path goes on. -/
theorem Path.rest {n e : Node} {vs : List VarRef} (hp : h.Path n vs e) {w : VarRef}
    (hw : w ∈ vs) : ∃ ws, h.Path (.variable w) ws e ∧ ws.length ≤ vs.length := by
  induction hp with
  | stop _ => cases hw
  | @bound v x e vs hc hp ih =>
    rcases List.mem_cons.mp hw with rfl | hw
    · exact ⟨_, Path.bound hc hp, Nat.le_refl _⟩
    · obtain ⟨ws, hws, hle⟩ := ih hw
      exact ⟨ws, hws, by simp; omega⟩

/-- A path that stops visits no variable twice. -/
theorem Path.nodup {n e : Node} {vs : List VarRef} (hp : h.Path n vs e) : vs.Nodup := by
  induction hp with
  | stop _ => exact List.nodup_nil
  | @bound v x e vs hc hp ih =>
    refine List.nodup_cons.mpr ⟨fun hv => ?_, ih⟩
    -- the rest of the path from the second visit would be shorter than itself
    obtain ⟨ws, hws, hle⟩ := hp.rest hv
    obtain ⟨rfl, -⟩ := hws.unique (Path.bound hc hp)
    simp only [List.length_cons] at hle
    omega

/-- Reading a cell succeeds only inside of the heap. -/
theorem lt_of_cell {v : VarRef} {c : Cell} (hc : h.cell v = .ok c) : v.index < h.cells.size := by
  rw [cell_eq_ok_iff] at hc
  exact (Array.getElem?_eq_some_iff.mp hc).1

theorem Path.inside {n e : Node} {vs : List VarRef} (hp : h.Path n vs e) :
    ∀ w ∈ vs, w.index < h.cells.size := by
  induction hp with
  | stop _ => intro w hw; cases hw
  | bound hc _ ih =>
    intro w hw
    rcases List.mem_cons.mp hw with rfl | hw
    · exact lt_of_cell hc
    · exact ih w hw

/-- A path is at most as long as there are variables. -/
theorem Path.length_le {n e : Node} {vs : List VarRef} (hp : h.Path n vs e) :
    vs.length ≤ h.variableCount := by
  -- the indices of the path are distinct numbers below the number of cells
  have hinj : Function.Injective VarRef.index := by
    rintro ⟨i⟩ ⟨j⟩ rfl; rfl
  have hnd : (vs.map VarRef.index).Nodup := hp.nodup.map hinj
  have hsub : vs.map VarRef.index ⊆ List.range h.cells.size := by
    intro i hi
    obtain ⟨w, hw, rfl⟩ := List.mem_map.mp hi
    exact List.mem_range.mpr (hp.inside w hw)
  simpa [variableCount] using hnd.length_le_of_subset hsub

/-! ### The bound is never reached -/

theorem follow_of_stops {e : Node} (hs : h.Stops e) (n : Nat) :
    h.follow (n + 1) e = h.follow 1 e := by
  cases e with
  | «variable» v =>
    simp only [follow]
    cases hc : h.cell v with
    | error f => rfl
    | ok c =>
      cases c with
      | bound x => exact absurd hc (hs v x rfl)
      | unbound ls => rfl
  | _ => rfl

theorem follow_of_path {n e : Node} {vs : List VarRef} (hp : h.Path n vs e) :
    ∀ k, vs.length < k → h.follow k n = h.follow 1 e := by
  induction hp with
  -- the last step needs one unit of the bound, whatever is left of it
  | stop hs =>
    intro k hk
    obtain ⟨k, rfl⟩ := Nat.exists_eq_add_one_of_ne_zero (Nat.ne_of_gt hk)
    exact follow_of_stops hs k
  | bound hc _ ih =>
    intro k hk
    obtain ⟨k, rfl⟩ := Nat.exists_eq_add_one_of_ne_zero (Nat.ne_of_gt (Nat.zero_lt_of_lt hk))
    simp only [follow, hc, ok_bind]
    exact ih k (by simpa using hk)

/-- Without a path there is no answer. -/
theorem follow_of_endless {k : Nat} {n : Node} (hne : ∀ vs e, ¬ h.Path n vs e) :
    h.follow k n = .error .endless := by
  induction k generalizing n with
  | zero => rfl
  | succ k ih =>
    by_cases hs : h.Stops n
    · exact absurd (Path.stop hs) (hne _ _)
    · unfold Stops at hs
      push Not at hs
      obtain ⟨v, x, rfl, hc⟩ := hs
      simp only [follow, hc, ok_bind]
      exact ih fun vs e hp => hne _ _ (Path.bound hc hp)

theorem deref_of_path {n e : Node} {vs : List VarRef} (hp : h.Path n vs e) :
    h.deref n = h.follow 1 e :=
  follow_of_path hp _ (Nat.lt_succ_of_le hp.length_le)

/-! ### The equations of dereferencing -/

/-- What is not a variable stands for itself. -/
theorem deref_of_value {n : Node} (hn : n.asVariable? = none) : h.deref n = .ok n := by
  cases n with
  | «variable» v => simp [Node.asVariable?] at hn
  | _ => rfl

/-- An unbound variable stands for itself. -/
theorem deref_unbound {v : VarRef} {ls : List Listener} (hc : h.cell v = .ok (.unbound ls)) :
    h.deref (.variable v) = .ok (.variable v) := by
  simp [deref, follow, hc, pure, Except.pure]

/-- A bound variable stands for what its value stands for. -/
theorem deref_bound {v : VarRef} {x : Node} (hc : h.cell v = .ok (.bound x)) :
    h.deref (.variable v) = h.deref x := by
  by_cases hex : ∃ vs e, h.Path x vs e
  · obtain ⟨vs, e, hp⟩ := hex
    rw [deref_of_path hp, deref_of_path (Path.bound hc hp)]
  -- the value lies on a circle, and so does the variable
  · push Not at hex
    have hv : ∀ vs e, ¬ h.Path (.variable v) vs e := by
      intro vs e hp
      cases hp with
      | stop hs => exact hs v x rfl hc
      | bound hc' hp =>
        rw [hc] at hc'
        cases hc'
        exact hex _ _ hp
    unfold deref
    rw [follow_of_endless hex, follow_of_endless hv]

/-- A dangling variable cannot be dereferenced. -/
theorem deref_dangling {v : VarRef} {f : Fault} (hc : h.cell v = .error f) :
    h.deref (.variable v) = .error f := by
  simp [deref, follow, hc]

/-- Dereferencing by its path: from where the path stops, back along the bound variables. -/
theorem deref_induct {motive : Node → Node → Prop}
    (value : ∀ n, n.asVariable? = none → motive n n)
    (unbound : ∀ v ls, h.cell v = .ok (.unbound ls) → motive (.variable v) (.variable v))
    (bound : ∀ v x d, h.cell v = .ok (.bound x) → h.deref x = .ok d → motive x d →
      motive (.variable v) d)
    {n d : Node} (hd : h.deref n = .ok d) : motive n d := by
  by_cases hex : ∃ vs e, h.Path n vs e
  · obtain ⟨vs, e, hp⟩ := hex
    induction hp with
    | @stop e hs =>
      cases e with
      | «variable» v =>
        cases hc : h.cell v with
        | error f => rw [deref_dangling hc] at hd; cases hd
        | ok c =>
          cases c with
          | bound x => exact absurd hc (hs v x rfl)
          | unbound ls =>
            rw [deref_unbound hc] at hd
            cases hd
            exact unbound v ls hc
      | _ =>
        rw [deref_of_value rfl] at hd
        cases hd
        exact value _ rfl
    | @bound v x e vs hc hp ih =>
      rw [deref_bound hc] at hd
      exact bound v x d hc hd (ih hd)
  -- what has no path has no answer, against `hd`
  · push Not at hex
    unfold deref at hd
    rw [follow_of_endless hex] at hd
    cases hd

/-- What a node stands for is the end of its chain. -/
theorem path_of_deref {n d : Node} (hd : h.deref n = .ok d) : ∃ vs, h.Path n vs d := by
  refine deref_induct (motive := fun n d => ∃ vs, h.Path n vs d) ?_ ?_ ?_ hd
  · intro n hn
    refine ⟨[], .stop ?_⟩
    rintro v x rfl
    cases hn
  · intro v ls hc
    refine ⟨[], .stop ?_⟩
    intro w x he hx
    cases he
    rw [hc] at hx
    cases hx
  · rintro v x d hc - ⟨vs, hp⟩
    exact ⟨v :: vs, .bound hc hp⟩

/-! ### What dereferencing ends at -/

/-- A variable that dereferencing ends at is unbound. -/
theorem cell_of_deref {n : Node} {v : VarRef} (hd : h.deref n = .ok (.variable v)) :
    ∃ ls, h.cell v = .ok (.unbound ls) := by
  refine deref_induct
    (motive := fun _ d => ∀ v, d = .variable v → ∃ ls, h.cell v = .ok (.unbound ls))
    ?_ ?_ ?_ hd v rfl
  · rintro n hn v rfl
    simp [Node.asVariable?] at hn
  · rintro v ls hc w hw
    cases hw
    exact ⟨ls, hc⟩
  · intro v x d hc hd ih
    exact ih

/-- Dereferencing twice is dereferencing once. -/
theorem deref_deref {n d : Node} (hd : h.deref n = .ok d) : h.deref d = .ok d := by
  cases d with
  | «variable» v =>
    obtain ⟨ls, hc⟩ := cell_of_deref hd
    exact deref_unbound hc
  | _ => rfl

/-- Whether a node has a value is read off what it stands for. -/
theorem isDetermined_eq {n d : Node} (hd : h.deref n = .ok d) :
    h.isDetermined n = .ok d.asVariable?.isNone := by
  unfold isDetermined
  rw [hd]
  cases d <;> rfl

end Heap

end Dataflow
