/-!
This module contains facts about lists that are put together from pieces.
-/

namespace Scrollback

theorem length_flatMap_of_forall {α β : Type} {f : α → List β} {size : Nat}
    (h : ∀ a, (f a).length = size) (l : List α) : (l.flatMap f).length = l.length * size := by
  induction l with
  | nil => simp
  | cons a l ih =>
    rw [List.flatMap_cons, List.length_append, List.length_cons, ih, h, Nat.succ_mul]
    omega

theorem foldl_filter_of_forall {α β : Type} {f : β → α → β} {p : α → Bool}
    (h : ∀ b a, p a = false → f b a = b) (l : List α) (b : β) :
    (l.filter p).foldl f b = l.foldl f b := by
  rw [List.foldl_filter]
  congr
  funext b a
  split
  · rfl
  · next hp => rw [h b a (Bool.not_eq_true _ ▸ hp)]

theorem drop_flatMap {α β : Type} (f : α → List β) (l : List α) (count : Nat) :
    (l.flatMap f).drop ((l.take count).flatMap f).length = (l.drop count).flatMap f := by
  calc (l.flatMap f).drop ((l.take count).flatMap f).length
    _ = ((l.take count ++ l.drop count).flatMap f).drop ((l.take count).flatMap f).length := by
      rw [List.take_append_drop]
    _ = (l.drop count).flatMap f := by
      rw [List.flatMap_append, List.drop_left]

theorem take_flatMap {α β : Type} (f : α → List β) (l : List α) (count : Nat) :
    (l.flatMap f).take ((l.take count).flatMap f).length = (l.take count).flatMap f := by
  calc (l.flatMap f).take ((l.take count).flatMap f).length
    _ = ((l.take count ++ l.drop count).flatMap f).take ((l.take count).flatMap f).length := by
      rw [List.take_append_drop]
    _ = (l.take count).flatMap f := by
      rw [List.flatMap_append, List.take_left]

theorem length_flatMap_take_le {α β : Type} (f : α → List β) (l : List α) {count count' : Nat}
    (h : count ≤ count') :
    ((l.take count).flatMap f).length ≤ ((l.take count').flatMap f).length := by
  have hsub : l.take count = (l.take count').take count := by
    rw [List.take_take, Nat.min_eq_left h]
  rw [hsub, ← take_flatMap, List.length_take]
  exact Nat.min_le_right _ _

theorem take_drop_flatMap {α β : Type} (f : α → List β) {l : List α} {k : Nat} {a : α}
    (h : l[k]? = some a) :
    ((l.flatMap f).drop ((l.take k).flatMap f).length).take (f a).length = f a := by
  obtain ⟨hk, rfl⟩ := List.getElem?_eq_some_iff.mp h
  rw [drop_flatMap, List.drop_eq_getElem_cons hk, List.flatMap_cons, List.take_left]

theorem take_drop_flatMap_mul {α β : Type} {f : α → List β} {size : Nat}
    (hsize : ∀ a, (f a).length = size) {l : List α} {k : Nat} {a : α} (h : l[k]? = some a) :
    ((l.flatMap f).drop (k * size)).take size = f a := by
  have hk := (List.getElem?_eq_some_iff.mp h).1
  have := take_drop_flatMap f h
  rw [length_flatMap_of_forall hsize, hsize, List.length_take, Nat.min_eq_left (by omega)] at this
  exact this

theorem find?_drop_zipIdx {α : Type} (p : α → Bool) {l : List α} {count : Nat}
    (h : ∀ a ∈ l.take count, p a = false) :
    (l.zipIdx.drop count).find? (fun indexed => p indexed.1) = l.zipIdx[l.findIdx p]? := by
  have hskipped : (l.zipIdx.take count).find? (fun indexed => p indexed.1) = none := by
    rw [List.find?_eq_none]
    intro indexed hindexed
    have hmem : indexed.1 ∈ l.take count := by
      rw [← List.zipIdx_map_fst 0 l, ← List.map_take]
      exact List.mem_map_of_mem hindexed
    rw [h _ hmem]
    exact Bool.false_ne_true
  calc (l.zipIdx.drop count).find? (fun indexed => p indexed.1)
    _ = (l.zipIdx.take count ++ l.zipIdx.drop count).find? (fun indexed => p indexed.1) := by
      rw [List.find?_append, hskipped, Option.none_or]
    _ = l.zipIdx[l.zipIdx.findIdx (p ∘ Prod.fst)]? := by
      rw [List.take_append_drop, List.find?_eq_getElem?_findIdx]
      rfl
    _ = l.zipIdx[l.findIdx p]? := by
      rw [← List.findIdx_map, List.zipIdx_map_fst]

theorem insertIdx_eq_take_append {α : Type} {l : List α} {i : Nat} (h : i ≤ l.length) (a : α) :
    l.insertIdx i a = l.take i ++ a :: l.drop i := by
  induction l generalizing i with
  | nil =>
    rw [List.length_nil, Nat.le_zero] at h
    rw [h]
    rfl
  | cons b l ih =>
    cases i with
    | zero => rfl
    | succ i =>
      rw [List.insertIdx_succ_cons, ih (by simpa using h), List.take_succ_cons, List.drop_succ_cons,
        List.cons_append]

theorem insertIdx_length_add {α : Type} (l l' : List α) (i : Nat) (a : α) :
    (l ++ l').insertIdx (l.length + i) a = l ++ l'.insertIdx i a := by
  induction l with
  | nil => simp
  | cons b l ih => rw [List.cons_append, List.length_cons, Nat.succ_add, List.insertIdx_succ_cons, ih,
      List.cons_append]

end Scrollback
