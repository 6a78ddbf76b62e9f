import Mathlib.Data.List.Sort
/-!
# Sorting by a key

A list sorted by a key with `List.insertionSort`: what is left out before the sort is
left out after it, and with keys that differ the result is the same from any order.
-/

namespace SortBy

variable {α κ : Type} [LinearOrder κ] {key : α → κ}

theorem sorted (key : α → κ) (l : List α) :
    (l.insertionSort (fun a b => key a ≤ key b)).Pairwise (fun a b => key a ≤ key b) := by
  have : Std.Total (fun a b : α => key a ≤ key b) := ⟨fun a b => le_total (key a) (key b)⟩
  have : IsTrans α (fun a b => key a ≤ key b) := ⟨fun _ _ _ => le_trans⟩
  exact List.pairwise_insertionSort _ l

theorem orderedInsert_least {a : α} {l : List α} (h : ∀ b ∈ l, key a ≤ key b) :
    l.orderedInsert (fun a b => key a ≤ key b) a = a :: l := by
  cases l with
  | nil => rfl
  | cons b l => exact List.orderedInsert_cons_of_le _ _ (h b List.mem_cons_self)

theorem filter_orderedInsert_out {p : α → Bool} {a : α} (ha : p a = false) (l : List α) :
    (l.orderedInsert (fun a b => key a ≤ key b) a).filter p = l.filter p := by
  induction l with
  | nil => simp [ha]
  | cons b l ih =>
    rw [List.orderedInsert_cons]
    split
    · rw [List.filter_cons_of_neg (by simp [ha])]
    · rw [List.filter_cons, List.filter_cons, ih]

theorem filter_orderedInsert {p : α → Bool} {a : α} (ha : p a = true) {l : List α}
    (hl : l.Pairwise (fun a b => key a ≤ key b)) :
    (l.orderedInsert (fun a b => key a ≤ key b) a).filter p =
      (l.filter p).orderedInsert (fun a b => key a ≤ key b) a := by
  induction l with
  | nil => simp [ha]
  | cons b l ih =>
    obtain ⟨hb, hl⟩ := List.pairwise_cons.1 hl
    rw [List.orderedInsert_cons]
    split
    · rename_i hab
      have hleast : ∀ c ∈ b :: l, key a ≤ key c := fun c hc =>
        (List.mem_cons.1 hc).elim (fun h => h ▸ hab) fun h => hab.trans (hb c h)
      rw [List.filter_cons_of_pos ha, orderedInsert_least fun c hc => hleast c (List.mem_of_mem_filter hc)]
    · rename_i hab
      cases hp : p b with
      | true => rw [List.filter_cons_of_pos hp, List.filter_cons_of_pos hp, List.orderedInsert_cons, if_neg hab, ih hl]
      | false => rw [List.filter_cons_of_neg (by simp [hp]), List.filter_cons_of_neg (by simp [hp]), ih hl]

theorem filter_insertionSort (key : α → κ) (p : α → Bool) (l : List α) :
    (l.insertionSort (fun a b => key a ≤ key b)).filter p = (l.filter p).insertionSort (fun a b => key a ≤ key b) := by
  induction l with
  | nil => rfl
  | cons a l ih =>
    rw [List.insertionSort_cons]
    cases hp : p a with
    | true => rw [filter_orderedInsert hp (sorted key l), ih, List.filter_cons_of_pos hp, List.insertionSort_cons]
    | false => rw [filter_orderedInsert_out hp, ih, List.filter_cons_of_neg (by simp [hp])]

/-- Two elements of one key keep their places. -/
theorem filter_insertionSort_pair (key : α → κ) {p : α → Bool} {a b : α} {l : List α} (h : l.filter p = [a, b])
    (hkey : key a ≤ key b) :
    (l.insertionSort (fun a b => key a ≤ key b)).filter p = [a, b] := by
  rw [filter_insertionSort key, h]
  exact orderedInsert_least fun c hc => by rwa [List.mem_singleton.1 hc]

/-- What is left of a list without repetitions when two of its elements are picked. -/
theorem filter_pair {p : α → Bool} {a b : α} {l : List α} (hn : l.Nodup) (h : List.Sublist [a, b] l)
    (hp : ∀ c, p c = true ↔ c = a ∨ c = b) : l.filter p = [a, b] := by
  obtain ⟨rest, hperm⟩ := h.exists_perm_append
  have hdisjoint := (List.nodup_append.1 (hperm.nodup_iff.1 hn)).2.2
  have hrest : rest.filter p = [] := by
    refine List.filter_eq_nil_iff.2 fun c hc hpc => ?_
    rcases (hp c).1 hpc with rfl | rfl
    · exact hdisjoint c (by simp) c hc rfl
    · exact hdisjoint c (by simp) c hc rfl
  have hself : [a, b].filter p = [a, b] := by simp [hp]
  have hlen := (hperm.filter p).length_eq
  rw [List.filter_append, hrest, hself, List.append_nil] at hlen
  have hfiltered := h.filter p
  rw [hself] at hfiltered
  exact (hfiltered.eq_of_length hlen.symm).symm

/-- With keys that strictly grow along a list, it is the only way to sort what it holds. -/
theorem eq_of_sorted {l l' : List α} (hp : l'.Perm l) (hl' : l'.Pairwise (fun a b => key a ≤ key b))
    (hl : l.Pairwise (fun a b => key a < key b)) : l' = l := by
  refine List.Perm.eq_of_pairwise (fun a b ha hb hab hba => ?_) hl' (hl.imp le_of_lt) hp
  have hn : (l.map key).Nodup := List.pairwise_map.2 (hl.imp ne_of_lt)
  exact List.inj_on_of_nodup_map hn (hp.subset ha) hb (le_antisymm hab hba)

/-- Of two elements of a list one stands before the other. -/
theorem pair_or {a b : α} {l : List α} (ha : a ∈ l) (hb : b ∈ l) (hne : a ≠ b) :
    List.Sublist [a, b] l ∨ List.Sublist [b, a] l := by
  obtain ⟨before, after, rfl⟩ := List.append_of_mem ha
  rcases List.mem_append.1 hb with hbefore | hafter
  · refine .inr (List.Sublist.append (List.singleton_sublist.2 hbefore) ?_)
    exact (List.nil_sublist after).cons_cons a
  · have hlater : b ∈ after := (List.mem_cons.1 hafter).resolve_left hne.symm
    exact .inl (((List.singleton_sublist.2 hlater).cons_cons a).trans (List.sublist_append_right before _))

/-- `List.mergeSort` keeps elements of one key in their order `r`. -/
theorem mergeSort_stable [DecidableEq α] {r : α → α → Prop} {l : List α} (hn : l.Nodup) (hl : l.Pairwise r) :
    (l.mergeSort (fun a b => key a ≤ key b)).Pairwise (fun a b => key a < key b ∨ key a = key b ∧ r a b) := by
  have htrans : ∀ a b c : α, decide (key a ≤ key b) = true → decide (key b ≤ key c) = true →
      decide (key a ≤ key c) = true := by
    simpa using fun a b c => le_trans
  have htotal : ∀ a b : α, (decide (key a ≤ key b) || decide (key b ≤ key a)) = true := by
    simpa using fun a b => le_total (key a) (key b)
  have hsorted := List.pairwise_mergeSort htrans htotal l
  have hnodup : (l.mergeSort (fun a b => key a ≤ key b)).Nodup := (List.mergeSort_perm l _).nodup_iff.2 hn
  rw [List.pairwise_iff_forall_sublist] at hl hsorted ⊢
  intro a b hab
  have hle : key a ≤ key b := by simpa using hsorted hab
  rcases hle.lt_or_eq with hlt | heq
  · exact .inl hlt
  · have hne : a ≠ b := by simpa using hnodup.sublist hab
    have ha : a ∈ l := List.mem_mergeSort.1 (hab.subset (by simp))
    have hb : b ∈ l := List.mem_mergeSort.1 (hab.subset (by simp))
    refine .inr ⟨heq, (pair_or ha hb hne).elim hl fun hba => ?_⟩
    -- the other order would have been kept too
    have hkept := List.pair_sublist_mergeSort htrans htotal (by simpa using heq.ge) hba
    have hpair := filter_pair (p := fun c => c = a ∨ c = b) hnodup hab (by simp)
    have hback := filter_pair (p := fun c => c = a ∨ c = b) hnodup hkept (by simp [or_comm])
    rw [hpair] at hback
    exact absurd (List.cons.inj hback).1 hne

end SortBy
