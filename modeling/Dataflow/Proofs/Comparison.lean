import Dataflow.Equality
import Dataflow.Proofs.Survey

/-! # A comparison ends

  A comparison of two values takes up pairs of nodes. A pair of records makes as many pairs
  pending as the records have fields, and one for the labels; it does so once, because it is
  remembered. So a comparison takes up at most `Heap.pairBound` pairs, and its bound is never what
  stops it.
-/

namespace Dataflow.Heap

variable {h : Heap} {owner : MachineId}

/-! ### What cannot be endless -/

theorem deref_ne_endless (hground : h.Grounded) (n : Node) : h.deref n ≠ .error .endless := by
  rcases n.value_or_variable with hv | ⟨v, rfl⟩
  · rw [deref_of_value hv]
    nofun
  · cases hc : h.cell v with
    | ok c =>
      obtain ⟨d, hd⟩ := hground hc
      rw [hd]
      nofun
    | error f =>
      rw [deref_dangling hc]
      unfold cell at hc
      split at hc
      · cases hc
      · cases hc
        nofun

theorem record_ne_endless (ref : RecordRef) : h.record ref ≠ .error .endless := by
  unfold record
  split <;> nofun

theorem same_ne_endless (a b : Atom) : a.same owner b ≠ .error .endless := by
  unfold Atom.same
  split <;> nofun

theorem sameValue_ne_endless (x y : Node) : x.sameValue owner y ≠ .error .endless := by
  unfold Node.sameValue
  split
  · exact same_ne_endless _ _
  all_goals nofun

theorem sameFeatures_ne_endless (fs gs : List Feature) :
    sameFeatures owner fs gs ≠ .error .endless := by
  induction fs generalizing gs with
  | nil => cases gs <;> nofun
  | cons f fs ih =>
    cases gs with
    | nil => nofun
    | cons g gs =>
      rw [sameFeatures]
      refine bind_ne_error (sameValue_ne_endless _ _) fun same _ => ?_
      cases same with
      | true => exact ih gs
      | false => nofun

theorem sameArity_ne_endless (r s : Record) : r.sameArity owner s ≠ .error .endless := by
  unfold Record.sameArity
  split
  · nofun
  · split
    · exact sameFeatures_ne_endless _ _
    · nofun
  · nofun

/-! ### What a comparison pays for -/

/-- The number of pairs that a pair of records makes pending, at most: that of the fields of the
    first one, and one for the labels. -/
def pairWeight (h : Heap) (p : RecordRef × RecordRef) : Nat :=
  match h.records[p.1.index]? with
  | some r => r.width + 1
  | none => 0

/-- All records of the heap. -/
def allRecords (h : Heap) : List RecordRef := (List.range h.recordCount).map RecordRef.mk

/-- All pairs of records of the heap. -/
def allPairs (h : Heap) : List (RecordRef × RecordRef) :=
  h.allRecords.flatMap fun a => h.allRecords.map fun b => (a, b)

/-- The number of pairs that the remembered ones have made pending. -/
def pairsSpent (h : Heap) (seen : List (RecordRef × RecordRef)) : Nat :=
  (seen.map h.pairWeight).sum

theorem mem_allRecords {a : RecordRef} {r : Record} (ha : h.record a = .ok r) :
    a ∈ h.allRecords := by
  have hi := (Array.getElem?_eq_some_iff.mp (record_eq_ok_iff.mp ha)).1
  exact List.mem_map.mpr ⟨a.index, List.mem_range.mpr hi, rfl⟩

theorem mem_allPairs {a b : RecordRef} {r s : Record} (ha : h.record a = .ok r)
    (hb : h.record b = .ok s) : (a, b) ∈ h.allPairs :=
  List.mem_flatMap.mpr ⟨a, mem_allRecords ha, List.mem_map.mpr ⟨b, mem_allRecords hb, rfl⟩⟩

/-- A weight of the first member, summed over all pairs of two lists. -/
theorem sum_pairs {α β : Type} (xs : List α) (ys : List β) (w : α × β → Nat) (u : α → Nat)
    (hw : ∀ x y, w (x, y) = u x) :
    ((xs.flatMap fun x => ys.map fun y => (x, y)).map w).sum = ys.length * (xs.map u).sum := by
  have hrow : ∀ x, ((ys.map fun y => (x, y)).map w).sum = ys.length * u x := by
    intro x
    rw [List.map_map]
    have hconst : (w ∘ fun y => (x, y)) = fun _ => u x := funext fun y => hw x y
    rw [hconst]
    simp
  induction xs with
  | nil => simp
  | cons x xs ih =>
    rw [List.flatMap_cons, List.map_append, List.sum_append, hrow, ih, List.map_cons, List.sum_cons,
      Nat.mul_add]

theorem sum_map_succ {α : Type} (xs : List α) (w : α → Nat) :
    (xs.map fun x => w x + 1).sum = (xs.map w).sum + xs.length := by
  induction xs with
  | nil => rfl
  | cons x xs ih =>
    simp only [List.map_cons, List.sum_cons, List.length_cons]
    omega

/-- The bound of a comparison pays for all pairs of records. -/
theorem pairsSpent_allPairs : h.pairBound = 1 + h.pairsSpent h.allPairs := by
  have hfields : h.fieldCount = (h.records.toList.map Record.width).sum := rfl
  have hrecords : (h.allRecords.map fun a => h.pairWeight (a, a)).sum =
      (h.records.toList.map fun r => r.width + 1).sum :=
    Survey.sum_range_eq h.records.toList _ RecordRef.mk (fun a => h.pairWeight (a, a))
      fun i r hi => by simp [pairWeight, show h.records[i]? = some r by simpa using hi]
  have hcount : h.records.toList.length = h.recordCount := by simp [recordCount]
  have hpairs := sum_pairs h.allRecords h.allRecords h.pairWeight (fun a => h.pairWeight (a, a))
    fun _ _ => rfl
  rw [pairsSpent, allPairs, hpairs, hrecords, sum_map_succ, ← hfields, hcount, pairBound]
  simp [allRecords, Nat.add_comm]

/-- What is remembered once is not paid for twice. -/
theorem pairsSpent_le {seen : List (RecordRef × RecordRef)} (hnd : seen.Nodup)
    (hsub : seen ⊆ h.allPairs) : h.pairsSpent seen ≤ h.pairsSpent h.allPairs :=
  Survey.sum_le_of_nodup_subset h.pairWeight hnd hsub

theorem length_pairs_le {a b : RecordRef} {r s : Record} (ha : h.record a = .ok r) :
    (pairs r s).length ≤ h.pairWeight (a, b) := by
  have hw : h.pairWeight (a, b) = r.width + 1 := by
    simp [pairWeight, record_eq_ok_iff.mp ha]
  have hmin : min r.fields.length s.fields.length ≤ r.fields.length := Nat.min_le_left _ _
  simp only [hw, pairs, Record.width, List.length_append, List.length_reverse, List.length_zip,
    List.length_singleton]
  omega

/-! ### The comparison ends -/

theorem equalPairs_ne_endless (hground : h.Grounded) {n : Nat} {pending : List (Node × Node)}
    {seen : List (RecordRef × RecordRef)} (hnd : seen.Nodup) (hsub : seen ⊆ h.allPairs)
    (hn : pending.length + h.pairsSpent h.allPairs ≤ n + h.pairsSpent seen) :
    h.equalPairs owner n pending seen ≠ .error .endless := by
  -- a pair that is taken up uses one unit of the bound, and a new pair of records pays for its own
  induction n generalizing pending seen with
  | zero =>
    have hle := pairsSpent_le hnd hsub
    cases pending with
    | nil => unfold equalPairs; nofun
    | cons p pending =>
      simp only [List.length_cons] at hn
      omega
  | succ n ih =>
    cases pending with
    | nil => unfold equalPairs; nofun
    | cons p pending =>
      obtain ⟨left, right⟩ := p
      simp only [List.length_cons] at hn
      -- what is done with a pair that makes nothing pending
      have hskip : h.equalPairs owner n pending seen ≠ .error .endless := ih hnd hsub (by omega)
      rw [equalPairs]
      refine bind_ne_error (deref_ne_endless hground left) fun x hx => ?_
      refine bind_ne_error (deref_ne_endless hground right) fun y hy => ?_
      clear hx hy
      split
      · next a b =>
        split
        · exact hskip
        · next hnew =>
          -- a pair of records is entered, and pays for what it makes pending
          refine bind_ne_error (record_ne_endless a) fun r ha => ?_
          refine bind_ne_error (record_ne_endless b) fun s hb => ?_
          refine bind_ne_error (sameArity_ne_endless r s) fun same _ => ?_
          cases same with
          | false => nofun
          | true =>
            have hnot : (a, b) ∉ seen := fun hm => hnew (.inr hm)
            have hlen : (pairs r s).length ≤ h.pairWeight (a, b) := length_pairs_le ha
            have hpaid : h.pairsSpent ((a, b) :: seen) =
                h.pairWeight (a, b) + h.pairsSpent seen := rfl
            refine ih (List.nodup_cons.mpr ⟨hnot, hnd⟩)
              (List.cons_subset.mpr ⟨mem_allPairs ha hb, hsub⟩) ?_
            simp only [List.length_append]
            omega
      · refine bind_ne_error (sameValue_ne_endless _ _) fun same _ => ?_
        cases same with
        | true => exact hskip
        | false => nofun

/-- A comparison of two values of a grounded heap ends. -/
theorem equals_ne_endless (hground : h.Grounded) (left right : Node) :
    h.equals owner left right ≠ .error .endless := by
  refine equalPairs_ne_endless hground List.nodup_nil (List.nil_subset _) ?_
  rw [pairsSpent_allPairs]
  simp [pairsSpent]

/-- A comparison that is not stopped by its bound has the same answer with a larger one. -/
theorem equalPairs_add {n : Nat} {pending : List (Node × Node)}
    {seen : List (RecordRef × RecordRef)}
    (he : h.equalPairs owner n pending seen ≠ .error .endless) (k : Nat) :
    h.equalPairs owner (n + k) pending seen = h.equalPairs owner n pending seen := by
  -- on the bound: a comparison that has not run into it goes the same way under a larger one
  induction n generalizing pending seen with
  | zero =>
    cases pending with
    | nil => cases k <;> rfl
    | cons p pending => exact absurd rfl he
  | succ n ih =>
    have hnk : n + 1 + k = n + k + 1 := by omega
    rw [hnk]
    cases pending with
    | nil => rfl
    | cons p pending =>
      obtain ⟨left, right⟩ := p
      rw [equalPairs] at he ⊢
      -- each step of the computation is the same, or the rest would be out of bound too
      refine bind_congr_of_ne he fun x hx => ?_
      refine bind_congr_of_ne hx fun y hy => ?_
      clear he hx
      split at hy
      · next r s =>
        split at hy
        · next hseen => rw [if_pos hseen, if_pos hseen, ih hy]
        · next hseen =>
          rw [if_neg hseen, if_neg hseen]
          refine bind_congr_of_ne hy fun p hp => ?_
          refine bind_congr_of_ne hp fun q hq => ?_
          refine bind_congr_of_ne hq fun same hsame => ?_
          cases same with
          | true => exact ih hsame
          | false => rfl
      · refine bind_congr_of_ne hy fun same hsame => ?_
        cases same with
        | true => exact ih hsame
        | false => rfl

end Dataflow.Heap
