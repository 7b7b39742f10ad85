import Mathlib.Data.List.SplitBy
import Scrollback.Proofs.Row.Wrap

/-!
This module contains the paragraphs that rows are divided in, and their layout.
-/

namespace Scrollback

section

variable {α β : Type} {continues : α → Bool}

/--
The lists that a list is divided in, each of which ends with the first element that does not continue
on the next.
-/
def chains (continues : α → Bool) (l : List α) : List (List α) :=
  l.splitBy fun a _ => continues a

theorem chains_append {init : List α} {last : α} {rest : List α}
    (hinit : ∀ a ∈ init, continues a = true) (hlast : continues last = true → rest = []) :
    chains continues (init ++ [last] ++ rest) = (init ++ [last]) :: chains continues rest := by
  have hchain : (init ++ [last]).IsChain fun a _ => continues a = true := by
    rw [List.isChain_append]
    refine ⟨?_, List.isChain_singleton _, ?_⟩
    · exact List.Pairwise.isChain (List.pairwise_of_forall_mem_list fun a ha _ _ => hinit a ha)
    · exact fun a ha _ _ => hinit a (List.mem_of_getLast? ha)
  rw [chains, List.splitBy_append, List.splitBy_of_isChain (by simp) hchain]
  · rfl
  · intro a ha b hb
    rw [List.getLast?_append, List.getLast?_singleton, Option.some_or, Option.mem_some] at ha
    rw [← ha]
    by_contra hcontinues
    rw [Bool.not_eq_false] at hcontinues
    rw [hlast hcontinues] at hb
    contradiction

theorem exists_chain (continues : α → Bool) {l : List α} (h : l ≠ []) :
    ∃ init last rest, l = init ++ [last] ++ rest ∧ (∀ a ∈ init, continues a = true)
      ∧ (continues last = true → rest = []) := by
  induction l with
  | nil => contradiction
  | cons a l ih =>
    by_cases hstop : continues a = true → l = []
    · exact ⟨[], a, l, rfl, by simp, hstop⟩
    · rw [Classical.not_imp] at hstop
      obtain ⟨init, last, rest, rfl, hinit, hlast⟩ := ih hstop.2
      exact ⟨a :: init, last, rest, rfl, List.forall_mem_cons.mpr ⟨hstop.1, hinit⟩, hlast⟩

theorem chains_rec (continues : α → Bool) {motive : List α → Prop} (nil : motive [])
    (append : ∀ init last rest, (∀ a ∈ init, continues a = true) →
      (continues last = true → rest = []) → motive rest → motive (init ++ [last] ++ rest))
    (l : List α) : motive l := by
  induction hn : l.length using Nat.strongRecOn generalizing l with | ind _ ih
  subst hn
  by_cases hnil : l = []
  · rw [hnil]
    exact nil
  · obtain ⟨init, last, rest, rfl, hinit, hlast⟩ := exists_chain continues hnil
    refine append init last rest hinit hlast (ih rest.length ?_ rest rfl)
    simp only [List.length_append, List.length_singleton]
    omega

theorem chains_map (f : α → β) (continues : β → Bool) (l : List α) :
    chains continues (l.map f) = (chains (fun a => continues (f a)) l).map (·.map f) := by
  induction l using chains_rec (fun a => continues (f a)) with
  | nil => rfl
  | append init last rest hinit hlast ih =>
    have hinit' : ∀ b ∈ init.map f, continues b = true := by
      simpa using hinit
    have hlast' : continues (f last) = true → rest.map f = [] := by
      simpa using hlast
    have hmap := chains_append hinit' hlast'
    rw [chains_append hinit hlast, List.map_cons, ← ih, List.map_append, List.map_append,
      List.map_singleton, hmap]

end

namespace Row

def paragraphs (rows : List Row) : List (List Row) :=
  chains (·.softWrapped) rows

def join (rows : List Row) : Row where
  cells := rows.flatMap (·.cells)
  softWrapped := rows.getLast?.any (·.softWrapped)

def rewrap (rows : List Row) (columns : Nat) : List Row :=
  (paragraphs rows).flatMap fun paragraph => (join paragraph).wrap columns

end Row

namespace StyledLine

def join (lines : List StyledLine) : StyledLine where
  chars := lines.flatMap (·.chars)
  softWrapped := lines.getLast?.any (·.softWrapped)

def rewrap (lines : List StyledLine) (columns : Nat) : List StyledLine :=
  (chains (·.softWrapped) lines).flatMap fun paragraph => (join paragraph).wrap columns

end StyledLine

namespace Row

theorem leads_join (rows : List Row) : (join rows).leads = rows.flatMap leads := by
  rw [leads, join, List.filter_flatMap]
  rfl

theorem wellFormed_join {rows : List Row} (h : ∀ row ∈ rows, row.WellFormed) :
    (join rows).WellFormed := by
  constructor
  · rw [leads_join, List.flatMap_assoc]
    exact List.flatMap_congr fun row hrow => (h row hrow).cells_eq
  · rw [leads_join]
    intro lead hlead
    obtain ⟨row, hrow, hlead⟩ := List.mem_flatMap.mp hlead
    exact (h row hrow).isLead lead hlead

theorem styled_join (rows : List Row) :
    (join rows).styled = StyledLine.join (rows.map Row.styled) := by
  rw [styled, leads_join, List.flatMap_assoc, StyledLine.join, List.flatMap_map, List.getLast?_map,
    Option.any_map]
  rfl

theorem wellFormed_of_mem_paragraphs {rows paragraph : List Row} (h : ∀ row ∈ rows, row.WellFormed)
    (hparagraph : paragraph ∈ paragraphs rows) : ∀ row ∈ paragraph, row.WellFormed := by
  intro row hrow
  apply h
  rw [← List.flatten_splitBy (fun row _ => row.softWrapped) rows]
  exact List.mem_flatten_of_mem hparagraph hrow

theorem wellFormed_rewrap {rows : List Row} (h : ∀ row ∈ rows, row.WellFormed) (columns : Nat) :
    ∀ row ∈ rewrap rows columns, row.WellFormed := by
  intro row hrow
  obtain ⟨paragraph, hparagraph, hrow⟩ := List.mem_flatMap.mp hrow
  exact (wellFormed_join (wellFormed_of_mem_paragraphs h hparagraph)).wrap columns row hrow

theorem map_styled_rewrap {rows : List Row} (h : ∀ row ∈ rows, row.WellFormed) (columns : Nat) :
    (rewrap rows columns).map Row.styled = StyledLine.rewrap (rows.map Row.styled) columns := by
  rw [rewrap, StyledLine.rewrap, List.map_flatMap, chains_map, List.flatMap_map]
  apply List.flatMap_congr
  intro paragraph hparagraph
  have hjoin := wellFormed_join (wellFormed_of_mem_paragraphs h hparagraph)
  rw [hjoin.styled_wrap, styled_join]

end Row

end Scrollback
