import Freestanding.Proofs.Build.SelfContained
import Freestanding.Proofs.Build.Stages
import Freestanding.Proofs.Collector.Stripping

/-!
# Allocations that stripping conceals

Code is judged by how the names of allocators begin, but only nine names are spared when scaffolding is
removed.  A call of any other allocator goes like every line that mentions scaffolding, with all that is
computed from its result, and then there is nothing left to report.  This module says exactly when that
happens: to which calls, when a body is judged self-contained after it, and what a clean judgement of a
stripped listing is worth.

## Main definitions

* `Residue.Reported` — a line that is reported as a call into the host's allocator.
* `Collector.substituted` — the body that is stripped under a policy.
* `Scaffolding.Conceals` — what stripping leaves of the allocations of a body.

## Main results

* `Residue.shows_functionText` — a reported call shows in a definition, unless a comment hides it.
* `Scaffolding.exists_conceals` — **which allocations stripping conceals.**
* `Scaffolding.bigBody_conceals` — an allocation that is removed without a report.
-/

namespace Freestanding

namespace Residue

/-! ### Reported calls -/

/-- A line is reported as a call into the host's allocator. -/
def Reported (line : Text) : Prop :=
  ∃ marker code, ofLine? line = some (.runtimeCall marker code)

private theorem Reported.exists_occurs {line : Text} (h : Reported line) :
    ∃ marker ∈ callMarkers, Text.occurs marker (Line.code line) := by
  obtain ⟨marker, code, h⟩ := h
  unfold ofLine? ofCode? at h
  cases hfind : callMarkers.find? (Text.occurs · (Line.code line)) with
  | some m => exact ⟨m, List.mem_of_find?_eq_some hfind, by simpa using List.find?_some hfind⟩
  | none =>
    -- whatever else is found is no call
    rw [hfind] at h
    dsimp only at h
    split at h
    · cases h
    · split at h
      · cases h
      · cases h

/-- A reported call shows behind every text that does not end in a comment. -/
theorem Reported.shows {line : Text} (h : Reported line) {before : Text} (hlive : liveAfter true before)
    (after : Text) : Shows (before ++ line ++ after) := by
  obtain ⟨marker, hmarker, hoccurs⟩ := h.exists_occurs
  obtain ⟨x, y, hcode, hstart⟩ := Text.occurs_iff.mp hoccurs
  obtain ⟨z, rfl⟩ := Text.startsWith_iff.mp hstart
  have hline : line = x ++ (marker ++ (z ++ line.dropWhile (· != ';'))) := by
    have hsplit : Line.code line ++ line.dropWhile (· != ';') = line := List.takeWhile_append_dropWhile
    rw [hcode] at hsplit
    simpa only [List.append_assoc] using hsplit.symm
  have hx : ';' ∉ x := by
    intro hmem
    have : ';' ∈ Line.code line := by
      rw [hcode]
      exact List.mem_append_left _ hmem
    simpa using List.mem_takeWhile_imp this
  have hplain : ∀ m ∈ callMarkers, m.all fun c => decide (c ≠ ';' ∧ c ≠ '\n') := by
    decide
  refine ⟨before ++ x, marker ++ (z ++ line.dropWhile (· != ';') ++ after), ?_, ?_, ?_⟩
  · nth_rewrite 1 [hline]
    simp only [List.append_assoc]
  · rw [liveAfter_append, hlive]
    exact liveAfter_of_notMem hx
  · rw [visible_append_of_forall (Text.forall_mem_of_all (hplain marker hmarker)), begins, marked, Bool.or_eq_true]
    left
    refine List.any_eq_true.mpr ⟨marker, List.mem_append_left _ hmarker, ?_⟩
    exact Text.startsWith_iff.mpr ⟨_, rfl⟩

/-- **A reported call shows in a definition**, unless it stands right behind a comment of the header. -/
theorem shows_functionText {header line : Text} {ls : List Text} (hline : line ∈ ls)
    (hreported : Reported line) (h : ';' ∉ header ∨ ls.head? ≠ some line) :
    Shows (Listing.functionText header (Text.unlines ls)) := by
  obtain ⟨before, after, heq, hbefore⟩ := Text.unlines_eq_of_mem hline
  have hlive : liveAfter true (header ++ before) := by
    rcases hbefore with ⟨rfl, hhead⟩ | ⟨rest, rfl⟩
    · rw [List.append_nil]
      exact liveAfter_of_notMem (h.resolve_right fun hne => hne hhead)
    · rw [← List.append_assoc, liveAfter_newline]
      rfl
  have hshows := hreported.shows hlive (after ++ ("\x7d" : Text))
  unfold Listing.functionText
  rw [heq]
  simpa only [List.append_assoc] using hshows

end Residue

namespace Collector

/-! ### Stripped definitions -/

/-- The body that is stripped under a policy: allocations that can be replaced are replaced before. -/
def substituted (policy : Policy) (body : Text) : Text :=
  if policy.substitutes then (Allocation.substitute body).1 else body

private theorem clean_fst (policy : Policy) (body : Text) :
    (clean policy body).1 = (Scaffolding.strip (substituted policy body)).1 := by
  unfold clean substituted
  cases policy.substitutes with
  | true => rfl
  | false => rfl

@[simp] theorem clean_strip (body : Text) :
    clean .strip body = ((Scaffolding.strip body).1, { removed := (Scaffolding.strip body).2 }) := rfl

/-- Definitions keep their headers, and their bodies are stripped. -/
theorem functionText_mem_eliminate {policy : Policy} (hpolicy : policy.strips) {l : Listing}
    {header body : Text} (h : (header, body) ∈ l.headers.zip l.bodies) :
    Listing.functionText header (Scaffolding.strip (substituted policy body)).1 ∈
      (eliminate policy l).1.functionTexts := by
  have htexts : (eliminate policy l).1.functionTexts =
      List.zipWith Listing.functionText l.headers (l.bodies.map fun b => (clean policy b).1) := by
    unfold eliminate
    rw [if_pos hpolicy]
    dsimp only
    split
    · simp only [Listing.functionTexts, Listing.declareMalloc, Listing.declare, List.map_map]
      rfl
    · simp only [Listing.functionTexts, List.map_map]
      rfl
  rw [htexts, ← clean_fst, List.zipWith_map_right, ← List.map_uncurry_zip_eq_zipWith]
  exact List.mem_map.mpr ⟨(header, body), h, rfl⟩

/-- A clean judgement has found all definitions self-contained. -/
theorem isSelfContained_of_verdict {policy : Policy} {function : Text} {l : Listing}
    (h : (verdict policy function l).outcome = .ok none) {text : Text} (htext : text ∈ l.functionTexts) :
    Residue.isSelfContained text := by
  refine (Listing.isSelfContained_of_residue? ?_).1 text htext
  rw [outcome_verdict] at h
  cases hresidue : l.residue? with
  | none => rfl
  | some residue =>
    rw [hresidue] at h
    dsimp only at h
    split at h
    · cases h
    · cases h

end Collector

namespace Scaffolding

open Residue (Reported)

/-! ### What is concealed -/

/-- What stripping leaves of the allocations of a body, if the lines at the places `S` are removed. -/
structure Conceals (body : Text) (S : Finset Nat) : Prop where
  /-- What is removed depends on the collector. -/
  least : IsLeast {T : Set Nat | Closed body.lines T} S
  /-- Nothing else is removed. -/
  strip_eq : (strip body).1 = Text.unlines (survivors S body.lines)
  /-- A reported call survives if it has one of the names that are spared, or if nothing in it depends
  on the collector. -/
  survives_iff : ∀ (i : Nat) (line : Text), body.lines[i]? = some line → Reported line →
    Text.occurs " call " line →
      (i ∉ S ↔ (∃ callee ∈ Allocation.callees, Text.occurs callee line) ∨
        ¬ Mentions (AssignedAt body.lines S) line)
  /-- The stripped body is self-contained if all that was to be reported has been removed. -/
  isSelfContained_iff : Residue.isSelfContained (strip body).1 ↔
    ∀ (i : Nat) (line : Text), body.lines[i]? = some line → (Residue.ofLine? line).isSome → i ∈ S
  /-- If the judgement after stripping is clean, all reported calls have been removed, up to one that
  stands behind a comment of the header. -/
  of_verdict : ∀ (policy : Policy) (function : Text) (l : Listing) (header original : Text),
    policy.strips → (header, original) ∈ l.headers.zip l.bodies →
    Collector.substituted policy original = body →
    (Collector.verdict policy function (Collector.eliminate policy l).1).outcome = .ok none →
    ∀ (i : Nat) (line : Text), body.lines[i]? = some line → Reported line →
      i ∈ S ∨ ';' ∈ header ∧ (survivors S body.lines).head? = some line

theorem isCall_eq_false_iff {line : Text} (hcall : Text.occurs " call " line) :
    Allocation.isCall line = false ↔ ¬ ∃ callee ∈ Allocation.callees, Text.occurs callee line := by
  unfold Allocation.isCall
  rw [hcall, Bool.true_and, Bool.eq_false_iff, ne_eq, List.any_eq_true]

theorem isSelfContained_unlines_survivors_iff {body : Text} {S : Finset Nat} :
    Residue.isSelfContained (Text.unlines (survivors S body.lines)) ↔
      ∀ (i : Nat) (line : Text), body.lines[i]? = some line → (Residue.ofLine? line).isSome → i ∈ S := by
  rw [Residue.isSelfContained_iff, Residue.shows_unlines_iff]
  constructor
  · intro h i line hi hresidue
    by_contra hnot
    have hmem : line ∈ survivors S body.lines := mem_survivors.mpr ⟨i, hi, hnot⟩
    exact h ⟨line, hmem, (Residue.shows_line_iff (notMem_of_mem_survivors hmem)).mpr hresidue⟩
  · rintro h ⟨line, hmem, hshows⟩
    obtain ⟨i, hi, hnot⟩ := mem_survivors.mp hmem
    exact hnot (h i line hi ((Residue.shows_line_iff (notMem_of_mem_survivors hmem)).mp hshows))

/-- **Which allocations stripping conceals.** -/
theorem exists_conceals (body : Text) : ∃ S : Finset Nat, Conceals body S := by
  obtain ⟨S, hS, hstrip⟩ := exists_isLeast_closed body
  have hfst : (strip body).1 = Text.unlines (survivors S body.lines) := by
    rw [hstrip]
  refine ⟨S, hS, hfst, ?_, ?_, ?_⟩
  · intro i line hi _ hcall
    rw [← Finset.mem_coe, mem_iff_of_isLeast hS hi, isCall_eq_false_iff hcall, not_and_or, not_not]
  · rw [hfst]
    exact isSelfContained_unlines_survivors_iff
  · rintro policy function l header original hpolicy hzip rfl hclean i line hi hreported
    have hself := Collector.isSelfContained_of_verdict hclean
      (Collector.functionText_mem_eliminate hpolicy hzip)
    rw [hfst, Residue.isSelfContained_iff] at hself
    by_contra hnot
    rw [not_or, not_and_or] at hnot
    obtain ⟨hnot, hplace⟩ := hnot
    exact hself (Residue.shows_functionText (mem_survivors.mpr ⟨i, hi, hnot⟩) hreported hplace)

/-! ### An allocation that goes unnoticed -/

/-- A call that takes a large object from the collector. -/
def bigCall : Text :=
  "  %big = call ptr @ijl_gc_big_alloc_instrumented(ptr %ptls_field, i64 4096, i64 1234)"

/-- A body that writes its argument into a large object. -/
def bigBody : Text :=
  Text.unlines ["", "top:", bigCall, "  store i64 %0, ptr %big, align 8", "  ret void", ""]

/-- The listing of a function with this body. -/
def bigListing : Listing :=
  { headers := ["define void @f(i64 %0) \x7b"], bodies := [bigBody] }

private theorem ofLine?_bigCall : Residue.ofLine? bigCall = some (.runtimeCall "@ijl_gc_" bigCall.trim) := by
  decide +kernel

theorem strip_bigBody : strip bigBody = (Text.unlines ["", "top:", "  ret void", ""], 2) := by
  unfold bigBody bigCall
  repeat rw [Text.toList_literal]
  decide +kernel

theorem residue?_bigListing :
    bigListing.residue? = some (.runtimeCall "@ijl_gc_" bigCall.trim) := by
  unfold bigListing bigBody bigCall
  repeat rw [Text.toList_literal]
  decide +kernel

private theorem residue?_eliminate_bigListing :
    (Collector.eliminate .strip bigListing).1.residue? = none := by
  have hclean : Collector.clean .strip bigBody =
      (Text.unlines ["", "top:", "  ret void", ""], { removed := 2 }) := by
    rw [Collector.clean_strip, strip_bigBody]
  have heliminate : (Collector.eliminate .strip bigListing).1 =
      { bigListing with bodies := [Text.unlines ["", "top:", "  ret void", ""]] } := by
    simp [Collector.eliminate, Policy.strips, bigListing, hclean, Collector.Tally.add]
  rw [heliminate]
  decide +kernel

/-- **The large object goes unnoticed**: its allocation is reported for the body, but it is removed
together with the line that writes to it, and the judgement after stripping is clean. -/
theorem bigBody_conceals :
    bigBody.lines[2]? = some bigCall ∧ Reported bigCall ∧ Text.occurs " call " (Line.code bigCall) ∧
      Line.assigned? bigCall = some ("%big" : Text) ∧
      strip bigBody = (Text.unlines ["", "top:", "  ret void", ""], 2) ∧
      Residue.isSelfContained bigBody = false ∧ Residue.isSelfContained (strip bigBody).1 ∧
      (Collector.verdict .strip "f" bigListing).outcome =
        .ok (some (.notSelfContained "f" (Residue.runtimeCall "@ijl_gc_" bigCall.trim).message)) ∧
      (Collector.verdict .strip "f" (Collector.eliminate .strip bigListing).1).outcome = .ok none := by
  refine ⟨by decide +kernel, ⟨_, _, ofLine?_bigCall⟩, by decide +kernel, by decide +kernel,
    strip_bigBody, by decide +kernel, ?_, ?_, ?_⟩
  · rw [strip_bigBody]
    decide +kernel
  · rw [Collector.outcome_verdict, residue?_bigListing]
    rfl
  · rw [Collector.outcome_verdict, residue?_eliminate_bigListing]

end Scaffolding

end Freestanding
