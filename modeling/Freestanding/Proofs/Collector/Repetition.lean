import Freestanding.Collector.Elimination
import Freestanding.Proofs.Collector.Concealment
import Freestanding.Proofs.Collector.Substitution

/-!
# Doing without the collector twice

What a policy asks for is done after one run.  A body without scaffolding has none that could go a second
time.  For allocations there is more to see, as the second run looks at a body whose tag addresses are
gone and whose allocations are rewritten: a line that was put in is no pool allocation, it assigns the
same value as the line it was put in for, and so no value is tagged that was not tagged before.

## Main results

* `Scaffolding.strip_strip` — scaffolding is removed at once.
* `Allocation.IsTagged.of_clean` — no value gets a tag address.
* `Collector.clean_clean` — a body that was cleaned is clean.
* `Collector.eliminate_eliminate` — **the second run changes nothing and counts nothing.**
-/

namespace Freestanding

/-! ### Scaffolding -/

namespace Scaffolding

/-- Stripping a body makes no lines, apart from an empty one if all lines go. -/
theorem mem_lines_strip {body line : Text} (h : line ∈ (strip body).1.lines) :
    line ∈ body.lines ∨ line = [] := by
  obtain ⟨S, -, hstrip⟩ := exists_isLeast_closed body
  rw [hstrip] at h
  refine (Text.mem_lines_unlines (fun l hl => notMem_of_mem_survivors hl) h).imp_left fun hline => ?_
  obtain ⟨i, hi, -⟩ := mem_survivors.mp hline
  exact List.mem_of_getElem? hi

/-- **Scaffolding is removed at once.** -/
theorem strip_strip (body : Text) : strip (strip body).1 = ((strip body).1, 0) := by
  obtain ⟨S, hS, hstrip⟩ := exists_isLeast_closed body
  rw [hstrip]
  refine strip_eq_self fun line hline hcall => ?_
  rcases Text.mem_lines_unlines (fun l hl => notMem_of_mem_survivors hl) hline with hmem | rfl
  · exact fun hmentions => not_mentions_of_mem_survivors hS hmem hcall
      (hmentions.mono fun t ht => ht.elim)
  · exact not_mentions_nil _

end Scaffolding

/-! ### Allocations -/

namespace Allocation

/-- A body without allocations to replace is left alone. -/
theorem substitute_eq_self {body : Text} (h : ∀ line ∈ body.lines, ∀ new, ¬ Replaces body line new) :
    substitute body = (body, 0) := by
  have hnone : ∀ line ∈ body.lines, replacement? (tagged body) line = none :=
    fun line hline => replacement?_eq_none_iff.mpr (h line hline)
  have hlines : body.lines.map (fun line => (replacement? (tagged body) line).getD line) = body.lines := by
    rw [List.map_congr_left fun line hline => by rw [hnone line hline, Option.getD_none], List.map_id']
  unfold substitute
  rw [Prod.mk.injEq, hlines, List.countP_eq_zero]
  refine ⟨List.intercalate_splitOn '\n', fun line hline => ?_⟩
  simp [hnone line hline]

/-- A line that is put in assigns the value of the line it is put in for. -/
theorem Replaces.assigned?_eq {body line new : Text} (h : Replaces body line new) :
    Line.assigned? new = Line.assigned? line := by
  obtain ⟨c, size, hwritten, -, -, -, rfl⟩ := h
  obtain ⟨hne, hsolid⟩ := hwritten.solid
  have hcut := cutAt?_word hwritten.indent hne hsolid
  obtain ⟨rest, rfl, -⟩ := hwritten.text
  have hold : c.indent ++ (c.result ++ (" = call " ++ rest)) =
      c.indent ++ (c.result ++ (" = " ++ ("call " ++ rest))) := rfl
  have hnew : mallocLine c.indent c.result size =
      c.indent ++ (c.result ++ (" = " ++ ("call ptr @malloc(i64 " ++ (size ++ ")")))) := by
    simp only [mallocLine, List.append_assoc]
    rfl
  unfold Line.assigned?
  rw [hold, hnew, hcut, hcut]
  rfl

/-- A line of a substituted body is a line of the body that is not replaced, or is put in for one. -/
theorem mem_lines_substitute {body line : Text} (h : line ∈ (substitute body).1.lines) :
    (line ∈ body.lines ∧ ∀ new, ¬ Replaces body line new) ∨ ∃ old ∈ body.lines, Replaces body old line := by
  rw [lines_substitute] at h
  obtain ⟨old, hold, rfl⟩ := List.mem_map.mp h
  cases hreplace : replacement? (tagged body) old with
  | none => exact .inl ⟨hold, replacement?_eq_none_iff.mp hreplace⟩
  | some new => exact .inr ⟨old, hold, replacement?_eq_some_iff.mp hreplace⟩

/-- **No value gets a tag address** by substituting and stripping. -/
theorem IsTagged.of_clean {body value : Text}
    (h : IsTagged (Scaffolding.strip (substitute body).1).1 value) : IsTagged body value := by
  obtain ⟨line, hline, tag, htag, hname⟩ := h
  rcases Scaffolding.mem_lines_strip hline with hline | rfl
  · rcases mem_lines_substitute hline with ⟨hmem, -⟩ | ⟨old, hmem, hreplaces⟩
    · exact ⟨line, hmem, tag, htag, hname⟩
    · exact ⟨old, hmem, tag, hreplaces.assigned?_eq ▸ htag, hname⟩
  · cases htag

/-- What is replaced depends on the body by its tag addresses only. -/
theorem Replaces.of_isTagged {body body' line new : Text} (h : Replaces body' line new)
    (hbody : ∀ value, IsTagged body' value → IsTagged body value) : Replaces body line new := by
  obtain ⟨c, size, hwritten, hsize, htagged, hspelled, hnew⟩ := h
  exact ⟨c, size, hwritten, hsize, hbody _ htagged, hspelled, hnew⟩

private theorem Replaces.isSome_poolCall? {body line new : Text} (h : Replaces body line new) :
    (poolCall? line).isSome := by
  obtain ⟨c, size, hwritten, -⟩ := h
  rw [poolCall?_eq_some_iff.mpr hwritten]
  rfl

/-- After substituting and stripping there is nothing to replace. -/
theorem substitute_clean (body : Text) :
    substitute (Scaffolding.strip (substitute body).1).1 =
      ((Scaffolding.strip (substitute body).1).1, 0) := by
  refine substitute_eq_self fun line hline new hreplaces => ?_
  rcases Scaffolding.mem_lines_strip hline with hline | rfl
  · rcases mem_lines_substitute hline with ⟨-, hkept⟩ | ⟨old, -, hold⟩
    · exact hkept new (hreplaces.of_isTagged fun value => IsTagged.of_clean)
    · have hcall := hreplaces.isSome_poolCall?
      rw [hold.poolCall?_eq_none] at hcall
      cases hcall
  · exact absurd hreplaces.isSome_poolCall? (by decide)

end Allocation

/-! ### Listings -/

namespace Collector

/-- **A body that was cleaned is clean.** -/
theorem clean_clean (policy : Policy) (body : Text) :
    clean policy (clean policy body).1 = ((clean policy body).1, {}) := by
  unfold clean
  cases policy.substitutes with
  | false =>
    simp only [Bool.false_eq_true, if_false, Scaffolding.strip_strip]
  | true =>
    simp only [if_true, Allocation.substitute_clean, Scaffolding.strip_strip]

private theorem bodies_eliminate {policy : Policy} (hpolicy : policy.strips) (l : Listing) :
    (eliminate policy l).1.bodies = l.bodies.map fun body => (clean policy body).1 := by
  unfold eliminate
  rw [if_pos hpolicy]
  dsimp only
  split <;> exact List.map_map

/-- A listing with clean bodies is left alone. -/
theorem eliminate_of_clean {policy : Policy} {l : Listing}
    (h : ∀ body ∈ l.bodies, clean policy body = (body, {})) : eliminate policy l = (l, {}) := by
  have htally : ∀ bodies : List Text, (bodies.map fun _ => ({} : Tally)).foldl Tally.add {} = {} := by
    intro bodies
    induction bodies with
    | nil => rfl
    | cons body bodies ih => exact ih
  have hcleaned : l.bodies.map (clean policy) = l.bodies.map fun body => (body, {}) :=
    List.map_congr_left h
  have hbodies : (l.bodies.map (clean policy)).map Prod.fst = l.bodies := by
    rw [hcleaned, List.map_map]
    exact List.map_id' l.bodies
  have hcounts : (l.bodies.map (clean policy)).map Prod.snd = l.bodies.map fun _ => {} := by
    rw [hcleaned, List.map_map]
    rfl
  unfold eliminate
  split
  · dsimp only
    rw [hbodies, hcounts, htally]
    rfl
  · rfl

/-- **The second run changes nothing and counts nothing**, whatever the policy and the listing. -/
theorem eliminate_eliminate (policy : Policy) (l : Listing) :
    eliminate policy (eliminate policy l).1 = ((eliminate policy l).1, {}) := by
  by_cases hpolicy : policy.strips
  · refine eliminate_of_clean fun body hbody => ?_
    rw [bodies_eliminate hpolicy] at hbody
    obtain ⟨body, -, rfl⟩ := List.mem_map.mp hbody
    exact clean_clean policy body
  · unfold eliminate
    rw [if_neg hpolicy, if_neg hpolicy]

end Collector

end Freestanding
