import Scrollback.Unicode.Conjunct
import Scrollback.Unicode.Extend
import Scrollback.Unicode.Format
import Scrollback.Unicode.Pictographic
import Scrollback.Unicode.SpacingMark

/-!
This module contains the division of text into extended grapheme clusters, the groups of characters
that a reader takes for one.
-/

namespace Scrollback

namespace Unicode

inductive BreakClass where
  | carriageReturn | lineFeed | control | extend | joiner | regionalIndicator | prepend
  | spacingMark
  | hangulLeading | hangulVowel | hangulTrailing | hangulOpen | hangulClosed
  | other
  deriving DecidableEq, Repr

namespace BreakClass

/--
The class of a Hangul letter or syllable. A syllable is closed if it ends in a consonant.
-/
def ofHangul? (char : Char) : Option BreakClass :=
  let code := char.toNat
  if (0x1100 ≤ code && code ≤ 0x115f) || (0xa960 ≤ code && code ≤ 0xa97c) then
    some .hangulLeading
  else if (0x1160 ≤ code && code ≤ 0x11a7) || (0xd7b0 ≤ code && code ≤ 0xd7c6) ||
      code == 0x16d63 || (0x16d67 ≤ code && code ≤ 0x16d6a) then
    some .hangulVowel
  else if (0x11a8 ≤ code && code ≤ 0x11ff) || (0xd7cb ≤ code && code ≤ 0xd7fb) then
    some .hangulTrailing
  else if 0xac00 ≤ code && code ≤ 0xd7a3 then
    some (if (code - 0xac00) % 28 = 0 then .hangulOpen else .hangulClosed)
  else
    none

def ofChar (char : Char) : BreakClass :=
  let code := char.toNat
  if 0x20 ≤ code && code < 0x7f then .other
  else if char = '\r' then .carriageReturn
  else if char = '\n' then .lineFeed
  else if char = '\u200d' then .joiner
  else if 0x1f1e6 ≤ code && code ≤ 0x1f1ff then .regionalIndicator
  else if 0x1f3fb ≤ code && code ≤ 0x1f3ff then .extend
  else if CodeRanges.graphemeExtend.contains char then .extend
  else if CodeRanges.spacingMark.contains char then .spacingMark
  else if CodeRanges.breakControl.contains char then .control
  else if CodeRanges.prepend.contains char then .prepend
  else (ofHangul? char).getD .other

def isolated : BreakClass → Bool
  | .carriageReturn | .lineFeed | .control => true
  | _ => false

end BreakClass

inductive EmojiState where
  | none | pictograph | joined
  deriving DecidableEq, Repr

inductive ConjunctState where
  | none | consonant | linked
  deriving DecidableEq, Repr

structure ClusterState where
  last : BreakClass
  emoji : EmojiState
  conjunct : ConjunctState
  openFlag : Bool

namespace ClusterState

def extendsConjunct (char : Char) (cls : BreakClass) : Bool :=
  match cls with
  | .joiner => true
  | .extend => char ≠ '\u200c'
  | _ => false

def next (state : ClusterState) (char : Char) : ClusterState where
  last := BreakClass.ofChar char
  emoji :=
    if CodeRanges.extendedPictographic.contains char then .pictograph
    else match BreakClass.ofChar char, state.emoji with
      | .extend, .pictograph => .pictograph
      | .joiner, .pictograph => .joined
      | _, _ => .none
  conjunct :=
    if CodeRanges.conjunctConsonant.contains char then .consonant
    else if CodeRanges.conjunctLinker.contains char then
      if state.conjunct = .none then .none else .linked
    else if extendsConjunct char (BreakClass.ofChar char) then state.conjunct
    else .none
  openFlag := BreakClass.ofChar char = .regionalIndicator && !state.openFlag

def initial : ClusterState :=
  { last := .control, emoji := .none, conjunct := .none, openFlag := false }

def joins (state : ClusterState) (char : Char) : Bool :=
  let cls := BreakClass.ofChar char
  if state.last = .carriageReturn && cls = .lineFeed then true
  else if state.last.isolated || cls.isolated then false
  else
    match state.last, cls with
    | _, .extend | _, .joiner | _, .spacingMark => true
    | .prepend, _ => true
    | .hangulLeading, .hangulLeading | .hangulLeading, .hangulVowel => true
    | .hangulLeading, .hangulOpen | .hangulLeading, .hangulClosed => true
    | .hangulOpen, .hangulVowel | .hangulVowel, .hangulVowel => true
    | .hangulOpen, .hangulTrailing | .hangulVowel, .hangulTrailing => true
    | .hangulClosed, .hangulTrailing | .hangulTrailing, .hangulTrailing => true
    | .regionalIndicator, .regionalIndicator => state.openFlag
    | _, _ =>
      (state.emoji = .joined && CodeRanges.extendedPictographic.contains char) ||
        (state.conjunct = .linked && CodeRanges.conjunctConsonant.contains char)

end ClusterState

/--
Split text into the part that belongs to the cluster before it and the clusters after that.
-/
def clustersFrom (state : ClusterState) : List Char → List Char × List (List Char)
  | [] => ([], [])
  | char :: chars =>
    let (rest, later) := clustersFrom (state.next char) chars
    if state.joins char then (char :: rest, later) else ([], (char :: rest) :: later)

def clusters : List Char → List (List Char)
  | [] => []
  | char :: chars =>
    let (rest, later) := clustersFrom (ClusterState.initial.next char) chars
    (char :: rest) :: later

theorem clustersFrom_flatten (state : ClusterState) (text : List Char) :
    (clustersFrom state text).1 ++ (clustersFrom state text).2.flatten = text := by
  induction text generalizing state with
  | nil => rfl
  | cons char chars ih =>
    have := ih (state.next char)
    simp only [clustersFrom]
    split <;> simp_all

theorem clusters_flatten (text : List Char) : (clusters text).flatten = text := by
  cases text with
  | nil => rfl
  | cons char chars => simp [clusters, clustersFrom_flatten]

theorem clustersFrom_ne_nil (state : ClusterState) (text : List Char) :
    ∀ cluster ∈ (clustersFrom state text).2, cluster ≠ [] := by
  induction text generalizing state with
  | nil => simp [clustersFrom]
  | cons char chars ih =>
    have := ih (state.next char)
    simp only [clustersFrom]
    split <;> simp_all

theorem clusters_ne_nil (text : List Char) : ∀ cluster ∈ clusters text, cluster ≠ [] := by
  cases text with
  | nil => simp [clusters]
  | cons char chars =>
    simp only [clusters, List.mem_cons, forall_eq_or_imp]
    exact ⟨by simp, clustersFrom_ne_nil _ _⟩

end Unicode

end Scrollback
