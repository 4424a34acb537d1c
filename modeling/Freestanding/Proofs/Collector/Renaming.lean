import Freestanding.Renaming
import Freestanding.Proofs.Collector.Residue

/-!
# Residue and renaming

Renaming the symbols of a text can bring residue about in two ways only: it begins within a symbol that
has been put in, or a symbol that has been taken out held a semicolon, so that what follows it is no
longer a comment.

## Main definitions

* `Residue.BeginsWithin` — residue begins within a symbol in front of a text.
* `Renaming.Exposes` — a renaming brings residue about.

## Main results

* `Renaming.shows_rename_iff` — **in a text without residue, renaming makes residue show if and only if
  it brings it about in one of the two ways.**
-/

namespace Freestanding

namespace Residue

/-- Residue begins within a symbol in front of a text. -/
def BeginsWithin (symbol after : Text) : Prop :=
  ∃ x y, symbol = x ++ y ∧ y ≠ [] ∧ begins (visible (y ++ after))

end Residue

namespace Renaming

open Residue Token

/-- A renaming brings residue about: within a symbol that it puts in, or behind one that it takes out and
that began a comment. -/
def Exposes (r : Renaming) (live : Bool) (segs : List Segment) : Prop :=
  ∃ before old new after, segs = before ++ .token old :: after ∧ r[old]? = some new ∧
    liveAfter live (before.flatMap r.segment) ∧
    (BeginsWithin new (after.flatMap r.segment) ∨ ';' ∈ old ∧ Shows (after.flatMap r.segment))

/-- Residue begins within a symbol that a renaming puts in. -/
def PutsIn (r : Renaming) (segs : List Segment) : Prop :=
  ∃ before old new after, segs = before ++ .token old :: after ∧ r[old]? = some new ∧
    liveAfter true (before.flatMap r.segment) ∧ BeginsWithin new (after.flatMap r.segment)

/-- Residue shows behind a symbol that a renaming takes out and that began a comment. -/
def Uncovers (r : Renaming) (segs : List Segment) : Prop :=
  ∃ before old new after, segs = before ++ .token old :: after ∧ r[old]? = some new ∧
    liveAfter true (before.flatMap r.segment) ∧ ';' ∈ old ∧ Shows (after.flatMap r.segment)

theorem exposes_iff {r : Renaming} {segs : List Segment} :
    r.Exposes true segs ↔ r.PutsIn segs ∨ r.Uncovers segs := by
  simp only [Exposes, PutsIn, Uncovers, ← exists_or, ← and_or_left]

/-- Symbols are renamed to symbols that fit into a line of code. -/
def IntoSymbols (r : Renaming) : Prop :=
  ∀ old new : Text, r[old]? = some new → new.head? = some '@' ∧ ';' ∉ new ∧ '\n' ∉ new

/-- Whatever has been cut into segments, its tokens are symbols. -/
def Symbols (segs : List Segment) : Prop :=
  ∀ t, .token t ∈ segs → t.head? = some '@'

/-- The characters of a segment are kept, or a symbol is put in for another. -/
theorem segment_cases (r : Renaming) (seg : Segment) :
    r.segment seg = seg.text ∨
      ∃ old new, seg = .token old ∧ r[old]? = some new ∧ r.segment seg = new := by
  cases seg with
  | gap c => exact .inl rfl
  | token t =>
    rw [segment, apply, Std.ExtTreeMap.getD_eq_getD_getElem?]
    cases h : r[t]? with
    | none => exact .inl rfl
    | some new => exact .inr ⟨t, new, rfl, h, rfl⟩

/-- Renaming does not touch what comes before the next symbol. -/
theorem sameFront_flatMap {r : Renaming} (hr : r.IntoSymbols) {segs : List Segment} (hsegs : Symbols segs) :
    SameFront (segs.flatMap r.segment) (segs.flatMap Segment.text) := by
  have hsymbol : ∀ t u : Text, t.head? = some '@' → Tail (t ++ u) := by
    intro t u ht
    obtain ⟨t, rfl⟩ := List.head?_eq_some_iff.mp ht
    exact .stop (t ++ u) (by decide)
  induction segs with
  | nil => exact Tail.nil.sameFront .nil
  | cons seg segs ih =>
    rw [List.flatMap_cons, List.flatMap_cons]
    cases seg with
    | gap c => exact (ih fun t ht => hsegs t (List.mem_cons_of_mem _ ht)).cons c
    | token t =>
      -- both texts go on with a sigil
      have ht := hsegs t List.mem_cons_self
      rcases r.segment_cases (.token t) with he | ⟨old, new, -, hnew, he⟩
      · rw [he]
        exact (hsymbol t _ ht).sameFront (hsymbol t _ ht)
      · rw [he]
        exact (hsymbol new _ (hr old new hnew).1).sameFront (hsymbol t _ ht)

theorem Exposes.cons {r : Renaming} {live : Bool} {seg : Segment} {segs : List Segment}
    (h : r.Exposes (liveAfter live (r.segment seg)) segs) : r.Exposes live (seg :: segs) := by
  obtain ⟨before, old, new, after, rfl, hnew, hlive, h⟩ := h
  refine ⟨seg :: before, old, new, after, rfl, hnew, ?_, h⟩
  rw [List.flatMap_cons, liveAfter_append]
  exact hlive

/-- Residue that shows after renaming showed before, or the renaming brings it about. -/
theorem showsFrom_of_rename {r : Renaming} (hr : r.IntoSymbols) {live live' : Bool} (hlive : live' → live)
    {segs : List Segment} (hsegs : Symbols segs) (h : ShowsFrom live' (segs.flatMap r.segment)) :
    ShowsFrom live (segs.flatMap Segment.text) ∨ r.Exposes live' segs := by
  induction segs generalizing live live' with
  | nil =>
    obtain ⟨before, after, he, hbefore, hbegins⟩ := h
    exact .inl ⟨before, after, he, liveAfter_mono hlive before hbefore, hbegins⟩
  | cons seg segs ih =>
    have hsegs' : Symbols segs := fun t ht => hsegs t (List.mem_cons_of_mem _ ht)
    rw [List.flatMap_cons, showsFrom_append] at h
    rcases r.segment_cases seg with hkeep | ⟨old, new, rfl, hnew, hput⟩
    · rw [List.flatMap_cons, showsFrom_append]
      rw [hkeep] at h
      rcases h with ⟨x, y, he, hy, hx, hbegins⟩ | h
      · rw [begins_visible_append hy (sameFront_flatMap hr hsegs')] at hbegins
        exact .inl (.inl ⟨x, y, he, hy, liveAfter_mono hlive x hx, hbegins⟩)
      · rcases ih (liveAfter_mono hlive seg.text) hsegs' h with h | h
        · exact .inl (.inr h)
        · exact .inr (Exposes.cons (hkeep ▸ h))
    · obtain ⟨-, hcode, hline⟩ := hr old new hnew
      have hsame : ∀ live, liveAfter live new = live := by
        intro live
        simp [liveAfter_line hline, hcode]
      rw [hput, hsame] at h
      rcases h with ⟨x, y, he, hy, hx, hbegins⟩ | h
      · -- residue begins within the new symbol
        have hlive' : live' = true := by
          have hxline : '\n' ∉ x := fun hm => hline (by simp [he, hm])
          rw [liveAfter_line hxline] at hx
          simpa using (Bool.and_eq_true_iff.mp hx).1
        exact .inr ⟨[], old, new, segs, rfl, hnew, hlive', .inl ⟨x, y, he, hy, hbegins⟩⟩
      · by_cases hlater : live' = true ∧ ';' ∈ old
        · -- the old symbol began a comment
          obtain ⟨rfl, hcomment⟩ := hlater
          exact .inr ⟨[], old, new, segs, rfl, hnew, rfl, .inr ⟨hcomment, h⟩⟩
        · have hle : live' → liveAfter live old := by
            intro hl
            obtain rfl : live = true := hlive hl
            exact liveAfter_of_notMem fun hm => hlater ⟨hl, hm⟩
          rcases ih hle hsegs' h with h | h
          · rw [List.flatMap_cons, showsFrom_append]
            exact .inl (.inr h)
          · refine .inr (Exposes.cons ?_)
            rw [hput, hsame]
            exact h

/-- What a renaming brings about shows. -/
theorem Exposes.shows {r : Renaming} (hr : r.IntoSymbols) {segs : List Segment} (h : r.Exposes true segs) :
    Shows (segs.flatMap r.segment) := by
  obtain ⟨before, old, new, after, rfl, hnew, hlive, h⟩ := h
  obtain ⟨-, hcode, hline⟩ := hr old new hnew
  have hput : r.segment (.token old) = new := by
    rw [segment, apply, Std.ExtTreeMap.getD_eq_getD_getElem?, hnew, Option.getD_some]
  rw [List.flatMap_append, List.flatMap_cons, hput]
  refine (showsFrom_append true _ _).mpr (.inr ?_)
  rw [hlive]
  refine (showsFrom_append true _ _).mpr ?_
  rcases h with ⟨x, y, rfl, hy, hbegins⟩ | ⟨-, h⟩
  · exact .inl ⟨x, y, rfl, hy, liveAfter_of_notMem fun hm => hcode (by simp [hm]), hbegins⟩
  · rw [liveAfter_of_notMem hcode]
    exact .inr h

/-- **In a text without residue, renaming makes residue show if and only if it brings it about.** -/
theorem shows_rename_iff {r : Renaming} (hr : r.IntoSymbols) {segs : List Segment} (hsegs : Symbols segs)
    (h : ¬ Shows (segs.flatMap Segment.text)) :
    Shows (segs.flatMap r.segment) ↔ r.Exposes true segs := by
  constructor
  · intro hshows
    exact (showsFrom_of_rename hr id hsegs hshows).resolve_left h
  · exact Exposes.shows hr

end Renaming

end Freestanding
