import Dataflow.Proofs.Ownership
import Dataflow.Proofs.Parts

/-! # What the ownership check finds

  Where the ownership check ends, its answer is exact for the parts of a value: it passes if all
  atoms among them belong to the machine, and otherwise it names the owner of one that does not.
  A bound variable is a leaf for the check, though equality, hashing and printing all look through
  it. So a value passes whose foreign atoms all lie behind bound variables, and the comparison that
  the check guards gives an answer on it.
-/

open Relation (ReflTransGen)

namespace Dataflow

/-- A search that finds something finds it in a member. -/
theorem findSomeM?_eq_some {α β : Type} {f : α → Except Fault (Option β)} {xs : List α} {b : β}
    (hf : xs.findSomeM? f = .ok (some b)) : ∃ x ∈ xs, f x = .ok (some b) := by
  induction xs with
  | nil => cases hf
  | cons x xs ih =>
    rw [findSomeM?_cons] at hf
    obtain ⟨found, hx, hf⟩ := bind_eq_ok.mp hf
    cases found with
    | some c =>
      cases hf
      exact ⟨x, List.mem_cons_self .., hx⟩
    | none =>
      obtain ⟨y, hy, hfound⟩ := ih hf
      exact ⟨y, List.mem_cons_of_mem _ hy, hfound⟩

namespace Heap

variable {h : Heap} {owner : MachineId}

/-- What the check finds is the owner of a foreign atom among the parts. -/
theorem exists_foreign_part {k : Nat} {n : Node} {found : MachineId}
    (hn : h.foreign? owner k n = .ok (some found)) :
    ∃ a, h.Parts n (.atom a) ∧ a.owner ≠ owner ∧ a.owner = found := by
  induction k generalizing n with
  | zero => cases hn
  | succ k ih =>
    cases n with
    | atom a =>
      rw [foreign?] at hn
      by_cases ha : a.owner = owner
      · rw [if_pos ha] at hn
        cases hn
      · rw [if_neg ha] at hn
        cases hn
        exact ⟨a, .refl, ha, rfl⟩
    | record ref =>
      rcases record_or_dangling h ref with ⟨r, hr⟩ | hd
      · rw [foreign?_record hr] at hn
        obtain ⟨x, hx, hfound⟩ := findSomeM?_eq_some hn
        obtain ⟨a, hparts, ha⟩ := ih hfound
        have hpart : h.Part (.record ref) x := ⟨ref, r, rfl, hr, hx⟩
        exact ⟨a, ReflTransGen.head hpart hparts, ha⟩
      · rw [foreign?_dangling hd] at hn
        cases hn
    | _ => cases hn

/-- The atoms among the parts of a clean node belong to the machine. -/
theorem Clean.owner_eq {n : Node} (hn : h.Clean owner n) {a : Atom} (ha : h.Parts n (.atom a)) :
    a.owner = owner := by
  -- by induction on the check that the node is clean, which ends though the heap may have circles
  induction hn with
  | own hown =>
    rcases ReflTransGen.cases_head ha with he | ⟨x, ⟨ref, r, hrec, -⟩, -⟩
    · cases he
      exact hown
    · cases hrec
  | leaf hatom hrecord =>
    rcases ReflTransGen.cases_head ha with rfl | ⟨x, ⟨ref, r, rfl, -⟩, -⟩
    · cases hatom
    · cases hrecord
  | @dangling ref hd =>
    rcases ReflTransGen.cases_head ha with he | ⟨x, ⟨ref', r, hrec, hr, -⟩, -⟩
    · cases he
    · cases hrec
      have hin : h.containsRecord ref = true := inRange_of_record hr
      rw [hd] at hin
      cases hin
  | record hr _ ih =>
    rcases ReflTransGen.cases_head ha with he | ⟨x, ⟨ref, r, hrec, hr', hx⟩, hxa⟩
    · cases he
    · cases hrec
      rw [hr] at hr'
      cases hr'
      exact ih x hx hxa

end Heap

namespace Machine

variable {m : Machine} {n : Node}

theorem owner_eq_of_owns (ho : m.owns n = .ok (.ok ())) {a : Atom}
    (ha : m.heap.Parts n (.atom a)) : a.owner = m.id := by
  obtain ⟨found, hf, ho⟩ := bind_eq_ok.mp ho
  cases found with
  | some found => cases ho
  | none => exact (Heap.clean_of_foreign? hf).owner_eq ha

theorem exists_foreign_of_owns {e : Refusal} (ho : m.owns n = .ok (.error e)) :
    ∃ a, m.heap.Parts n (.atom a) ∧ a.owner ≠ m.id ∧ e = .foreignValue m.id a.owner := by
  obtain ⟨found, hf, ho⟩ := bind_eq_ok.mp ho
  cases found with
  | none => cases ho
  | some found =>
    cases ho
    obtain ⟨a, hparts, ha, rfl⟩ := Heap.exists_foreign_part hf
    exact ⟨a, hparts, ha, rfl⟩

/-- A comparison that gives an answer has been let through by the check of both values. -/
theorem owns_of_tryEquals {left right : Node} {same : Bool}
    (ht : m.tryEquals left right = .ok (.ok same)) :
    m.owns left = .ok (.ok ()) ∧ m.owns right = .ok (.ok ()) := by
  obtain ⟨first, hl, ht⟩ := bind_eq_ok.mp ht
  cases first with
  | error e => cases ht
  | ok u =>
    obtain ⟨second, hr, ht⟩ := bind_eq_ok.mp ht
    cases second with
    | error e => cases ht
    | ok u => exact ⟨hl, hr⟩

/-- Where the ownership check ends, it passes exactly if all atoms among the parts of the value
    belong to the machine, and otherwise it names the owner of one that does not. A foreign atom
    that it misses lies behind a bound variable among the parts. The guarded comparison answers
    only on values whose parts hold no foreign atom. -/
theorem owns_exact_on_parts {answer : Except Refusal Unit} (ho : m.owns n = .ok answer) :
    (answer = .ok () ↔ ∀ a, m.heap.Parts n (.atom a) → a.owner = m.id) ∧
    (∀ e, answer = .error e →
      ∃ a, m.heap.Parts n (.atom a) ∧ a.owner ≠ m.id ∧ e = .foreignValue m.id a.owner) ∧
    (answer = .ok () → ∀ a, m.heap.Holds n (.atom a) → a.owner ≠ m.id →
      ∃ v x, m.heap.Parts n (.variable v) ∧ m.heap.cell v = .ok (.bound x) ∧
        m.heap.Holds x (.atom a)) ∧
    (∀ left right same, m.tryEquals left right = .ok (.ok same) →
      ∀ a, m.heap.Parts left (.atom a) ∨ m.heap.Parts right (.atom a) → a.owner = m.id) := by
  refine ⟨⟨?_, ?_⟩, ?_, ?_, ?_⟩
  · rintro rfl a ha
    exact owner_eq_of_owns ho ha
  · intro hown
    cases answer with
    | ok u => rfl
    | error e =>
      obtain ⟨a, ha, hforeign, -⟩ := exists_foreign_of_owns ho
      exact absurd (hown a ha) hforeign
  · rintro e rfl
    exact exists_foreign_of_owns ho
  · rintro rfl a ha hforeign
    rcases ha.parts_or_behind with hparts | hbehind
    · exact absurd (owner_eq_of_owns ho hparts) hforeign
    · exact hbehind
  · intro left right same ht a ha
    obtain ⟨hleft, hright⟩ := owns_of_tryEquals ht
    rcases ha with ha | ha
    · exact owner_eq_of_owns hleft ha
    · exact owner_eq_of_owns hright ha

/-- An atom of the machine with the number one. -/
def stray : Atom := ⟨⟨⟨1⟩, 0⟩, "stray"⟩

/-- A machine with a variable that is bound to a foreign atom. -/
def disguised : Machine :=
  { id := ⟨0⟩
    heap := { cells := #[.bound (.atom stray)], allocated := 1 } }

theorem reachable_disguised : Reachable disguised :=
  ((Reachable.new ⟨0⟩ {}).step (.newVariable _)).step (.bind ⟨0⟩ (.atom stray) rfl)

/-- The variable passes the check and is compared, though it stands for the foreign atom. -/
theorem disguised_passes : Reachable disguised ∧
    disguised.owns (.variable ⟨0⟩) = .ok (.ok ()) ∧
    disguised.tryEquals (.variable ⟨0⟩) .unit = .ok (.ok false) ∧
    disguised.heap.Holds (.variable ⟨0⟩) (.atom stray) ∧ stray.owner ≠ disguised.id ∧
    ∃ v x, disguised.heap.Parts (.variable ⟨0⟩) (.variable v) ∧
      disguised.heap.cell v = .ok (.bound x) ∧ disguised.heap.Holds x (.atom stray) := by
  have ho : disguised.owns (.variable ⟨0⟩) = .ok (.ok ()) := by rfl
  have hholds : disguised.heap.Holds (.variable ⟨0⟩) (.atom stray) :=
    Heap.holds_deref (by rfl)
  have hforeign : stray.owner ≠ disguised.id := by decide
  obtain ⟨-, -, hbehind, -⟩ := owns_exact_on_parts ho
  exact ⟨reachable_disguised, ho, by rfl, hholds, hforeign, hbehind rfl stray hholds hforeign⟩

end Machine

end Dataflow
