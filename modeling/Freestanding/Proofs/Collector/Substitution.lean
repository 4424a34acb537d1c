import Freestanding.Collector.Allocation
import Freestanding.Proofs.Line.Values

/-!
# Which pool allocations are replaced

A pool allocation is replaced by a call of `malloc` if the body computes a tag address for its object.
The call is read off its line by one recogniser and the tagged values off all lines by another, and the
two have to agree on the spelling of the object: the first one takes the object as it is written, if it
is written without blanks, while the second one writes the name of the object anew.  So an allocation of
a tagged object is replaced if and only if its value holds no blank and is spelled the way it would be
written.  Numbered values are not: `%5` would be written `%"5"`.

## Main definitions

* `Allocation.PoolCall.Written` — how a pool allocation is written that the recogniser accepts.
* `Allocation.PoolAllocation` — a pool allocation with all its parts, whatever its value looks like.
* `Allocation.IsTagged`, `Allocation.AsWritten` — the body computes the tag address of a value, and a
  value holds no blank and is spelled the way it would be written.
* `Allocation.Substitutes` — what is replaced in a body, and how often.

## Main results

* `Allocation.poolCall?_eq_some_iff`, `Allocation.mem_tagged_iff` — what the two recognisers accept.
* `Allocation.replacement?_eq_some_iff` — which lines are replaced.
* `Allocation.Replaces.poolCall?_eq_none` — a line that was put in is no pool allocation.
* `Allocation.substitute_exact` — **an allocation of a tagged object is replaced if and only if its value
  is as it is written.**
* `Allocation.numberedBody_not_substituted` — an allocation of a tagged object that is not replaced.
-/

namespace Freestanding

namespace Allocation

/-! ### Calls of pool allocators -/

/-- The allocators that take an object from a pool. -/
def poolCallees : List Text :=
  ["ijl_gc_pool_alloc_instrumented", "ijl_gc_pool_alloc", "ijl_gc_small_alloc"]

/-- What stands in parentheses at the start of a text. -/
theorem inParentheses_eq_some_iff {t operands : Text} :
    ((Text.stripPrefix? t "(").bind fun t =>
      if ')' ∈ t then some (t.takeWhile (· != ')')) else none) = some operands ↔
      ∃ after, t = '(' :: (operands ++ ')' :: after) ∧ ')' ∉ operands := by
  rw [Option.bind_eq_some_iff]
  simp only [Text.stripPrefix?_eq_some_iff, Text.takeWhile_eq_some_iff]
  constructor
  · rintro ⟨u, rfl, after, rfl, hnot⟩
    exact ⟨after, rfl, hnot⟩
  · rintro ⟨after, rfl, hnot⟩
    exact ⟨_, rfl, after, rfl, hnot⟩

/-- A call of a pool allocator starts with the symbol of the allocator, and its operands end at the first
closing parenthesis. -/
theorem poolOperandsAt?_eq_some_iff {t operands : Text} : poolOperandsAt? t = some operands ↔
    ∃ callee ∈ poolCallees, ∃ after,
      t = '@' :: (callee ++ '(' :: (operands ++ ')' :: after)) ∧ ')' ∉ operands := by
  have hinstrumented : ("ijl_gc_pool_alloc_instrumented" : Text) =
      "ijl_gc_pool_alloc" ++ "_instrumented" := by decide
  unfold poolOperandsAt?
  simp only [Option.bind_eq_bind]
  rw [Option.bind_eq_some_iff]
  constructor
  · rintro ⟨u, hat, h⟩
    obtain rfl := Text.stripPrefix?_eq_some_iff.mp hat
    split at h
    · next v hv =>
      obtain rfl := Text.stripPrefix?_eq_some_iff.mp hv
      obtain ⟨after, hafter, hnot⟩ := inParentheses_eq_some_iff.mp h
      -- the longer one of two names is tried first
      cases hlong : Text.stripPrefix? v "_instrumented" with
      | some w =>
        rw [hlong, Option.getD_some] at hafter
        obtain rfl := Text.stripPrefix?_eq_some_iff.mp hlong
        refine ⟨"ijl_gc_pool_alloc_instrumented", by simp [poolCallees], after, ?_, hnot⟩
        rw [hafter, hinstrumented, List.append_assoc]
        rfl
      | none =>
        rw [hlong, Option.getD_none] at hafter
        refine ⟨"ijl_gc_pool_alloc", by simp [poolCallees], after, ?_, hnot⟩
        rw [hafter]
        rfl
    · obtain ⟨v, hv, hparentheses⟩ := Option.bind_eq_some_iff.mp h
      obtain rfl := Text.stripPrefix?_eq_some_iff.mp hv
      obtain ⟨after, rfl, hnot⟩ := inParentheses_eq_some_iff.mp hparentheses
      exact ⟨"ijl_gc_small_alloc", by simp [poolCallees], after, rfl, hnot⟩
  · rintro ⟨callee, hcallee, after, rfl, hnot⟩
    refine ⟨callee ++ '(' :: (operands ++ ')' :: after), Text.stripPrefix?_eq_some_iff.mpr rfl, ?_⟩
    have htail := inParentheses_eq_some_iff.mpr ⟨after, rfl, hnot⟩
    simp only [poolCallees, List.mem_cons, List.not_mem_nil, or_false] at hcallee
    rcases hcallee with rfl | rfl | rfl
    · rw [hinstrumented, List.append_assoc, Text.stripPrefix?_append]
      dsimp only
      rw [Text.stripPrefix?_append]
      exact htail
    · rw [Text.stripPrefix?_append]
      exact htail
    · have hpool : Text.stripPrefix? (("ijl_gc_small_alloc" : Text) ++ '(' :: (operands ++ ')' :: after))
          "ijl_gc_pool_alloc" = none := rfl
      rw [hpool, Text.stripPrefix?_append]
      exact htail

/-- A call starts with the sigil of symbols and the name of an allocator. -/
theorem exists_of_poolOperandsAt? {t operands : Text} (h : poolOperandsAt? t = some operands) :
    ∃ u, t = '@' :: 'i' :: u := by
  obtain ⟨callee, hcallee, after, rfl, -⟩ := poolOperandsAt?_eq_some_iff.mp h
  have hname : ∀ callee ∈ poolCallees, ∃ u, callee = 'i' :: u := by
    simp only [poolCallees, List.forall_mem_cons]
    exact ⟨⟨_, rfl⟩, ⟨_, rfl⟩, ⟨_, rfl⟩, by simp⟩
  obtain ⟨u, rfl⟩ := hname callee hcallee
  exact ⟨_, rfl⟩

/-- A call does not start within a text without the sigil. -/
theorem suffix_of_append_eq {p q x u : Text} (h : p ++ q = x ++ '@' :: u) (hp : '@' ∉ p) :
    ∃ z, q = z ++ '@' :: u := by
  rcases List.append_eq_append_iff.mp h with ⟨z, -, hz⟩ | ⟨z, rfl, hz⟩
  · exact ⟨z, hz⟩
  · cases z with
    | nil => exact ⟨[], hz.symm⟩
    | cons c z =>
      rw [← (List.cons.inj hz).1] at hp
      exact absurd (by simp) hp

/-- A call that is cut off within its operands is a call, if the operands go on. -/
theorem exists_poolOperandsAt?_append {s y operands : Text} (h : poolOperandsAt? (s ++ [')']) = some operands)
    (hs : ')' ∉ s) (hy : ')' ∉ y) (after : Text) :
    ∃ operands', poolOperandsAt? (s ++ (y ++ ')' :: after)) = some operands' := by
  obtain ⟨callee, hcallee, behind, he, hoperands⟩ := poolOperandsAt?_eq_some_iff.mp h
  have hname : ')' ∉ '@' :: (callee ++ '(' :: operands) := by
    have hall : ∀ callee ∈ poolCallees, ')' ∉ callee := by decide
    simp [hall callee hcallee, hoperands]
  have hcall : s = '@' :: (callee ++ '(' :: operands) := by
    have htake := congrArg (List.takeWhile fun c => c != ')') he
    have hassoc : '@' :: (callee ++ '(' :: (operands ++ ')' :: behind)) =
        ('@' :: (callee ++ '(' :: operands)) ++ ')' :: behind := by simp
    rw [hassoc, Text.takeWhile_append_cons hs, Text.takeWhile_append_cons hname] at htake
    exact htake
  exact ⟨operands ++ y, poolOperandsAt?_eq_some_iff.mpr
    ⟨callee, hcallee, after, by simp [hcall], by simp [hoperands, hy]⟩⟩

/-- How a pool allocation is written that the recogniser accepts: the value holds no blank, and of
several calls on the line the last one counts. -/
structure PoolCall.Written (c : PoolCall) (line : Text) : Prop where
  /-- Blanks stand before the value. -/
  indent : ∀ x ∈ c.indent, Text.isBlank x
  /-- The value is a word behind a sigil. -/
  result : ∃ name, name ≠ [] ∧ c.result = '%' :: name ∧ ∀ x ∈ name, Text.isBlank x = false
  /-- A call follows the value. -/
  text : ∃ rest, line = c.indent ++ (c.result ++ (" = call " ++ rest)) ∧
    Text.last? poolOperandsAt? rest = some c.operands

/-- **What is read as a pool allocation is written as one.** -/
theorem poolCall?_eq_some_iff {line : Text} {c : PoolCall} :
    poolCall? line = some c ↔ c.Written line := by
  unfold poolCall?
  constructor
  · intro h
    dsimp only at h
    split at h
    · next t hline =>
      simp only [Option.bind_eq_bind, Option.bind_eq_some_iff] at h
      obtain ⟨⟨name, behind⟩, hrun, u, hcall, operands, hlast, h⟩ := h
      obtain rfl := Option.some.inj h
      obtain rfl := Text.stripPrefix?_eq_some_iff.mp hcall
      obtain ⟨rfl, hne⟩ := Token.append_eq_of_run? hrun
      refine ⟨fun x hx => List.mem_takeWhile_imp hx, ⟨name, hne, rfl, ?_⟩, u, ?_, hlast⟩
      · intro x hx
        unfold Text.run? at hrun
        split at hrun
        · cases hrun
        · next hword =>
          obtain ⟨rfl, -⟩ := Prod.mk.inj (Option.some.inj hrun)
          rw [← hword] at hx
          simpa using List.mem_takeWhile_imp hx
      · have hsplit : line.takeWhile Text.isBlank ++ line.dropWhile Text.isBlank = line :=
          List.takeWhile_append_dropWhile
        rw [hline] at hsplit
        exact hsplit.symm
    · cases h
  · rintro ⟨hindent, ⟨name, hne, hresult, hname⟩, rest, rfl, hlast⟩
    have hsigil : ∀ u : Text, ('%' :: u).takeWhile Text.isBlank = [] ∧
        ('%' :: u).dropWhile Text.isBlank = '%' :: u := by
      intro u
      exact ⟨List.takeWhile_cons_of_neg (by decide), List.dropWhile_cons_of_neg (by decide)⟩
    have hrun : Text.run? (!Text.isBlank ·) (name ++ (" = call " ++ rest)) =
        some (name, " = call " ++ rest) := by
      refine Text.run?_append hne (fun x hx => by simp [hname x hx]) ?_
      intro x hx
      rw [← Option.some.inj hx]
      decide
    rw [List.takeWhile_append_of_pos hindent, List.dropWhile_append_of_pos hindent, hresult,
      List.cons_append, (hsigil _).1, (hsigil _).2]
    simp only [hrun, Option.bind_eq_bind, Option.bind_some, Text.stripPrefix?_append, hlast, List.append_nil]
    rw [← hresult]

/-! ### Tagged values -/

/-- The body computes a tag address for the value: a line assigns the value of the same name with the
suffix of tag addresses. -/
def IsTagged (body value : Text) : Prop :=
  ∃ line ∈ body.lines, ∃ tag, Line.assigned? line = some tag ∧
    Name.bare tag = Name.bare value ++ tagSuffix

/-- **The values that are found to be tagged** are those for which the body computes a tag address, if
they are spelled the way they would be written. -/
theorem mem_tagged_iff {body value : Text} :
    value ∈ tagged body ↔ IsTagged body value ∧ Name.value (Name.bare value) = value := by
  have hprinted : tagged body = body.lines.filterMap taggedBy? := by
    refine Text.filterMap_printedLines (by decide) (fun line => ?_) body
    unfold taggedBy?
    rw [Line.assigned?_stripReturn]
  have hsuffix : ∀ t name : Text, Text.stripSuffix? t tagSuffix = some name ↔ t = name ++ tagSuffix := by
    intro t name
    rw [Text.stripSuffix?, Option.map_eq_some_iff]
    constructor
    · rintro ⟨u, hu, rfl⟩
      rw [Text.stripPrefix?_eq_some_iff] at hu
      rw [← List.reverse_reverse t, hu]
      simp
    · rintro rfl
      exact ⟨name.reverse, by rw [List.reverse_append, Text.stripPrefix?_append], List.reverse_reverse name⟩
  rw [hprinted, List.mem_filterMap]
  unfold taggedBy?
  simp only [Option.bind_eq_bind, Option.bind_eq_some_iff, hsuffix, pure, Option.some.injEq]
  constructor
  · rintro ⟨line, hline, tag, htag, name, hname, rfl⟩
    -- the name of a tag address holds no quotes, so it is the name of the value that is written for it
    have hquote : '"' ∉ name := fun hmem =>
      Name.quote_notMem_bare (Line.isValue_of_assigned? htag) (by rw [hname]; exact List.mem_append_left _ hmem)
    rw [IsTagged, Name.bare_value hquote]
    exact ⟨⟨line, hline, tag, htag, hname⟩, rfl⟩
  · rintro ⟨⟨line, hline, tag, htag, hname⟩, hvalue⟩
    exact ⟨line, hline, tag, htag, _, hname, hvalue⟩

/-! ### Lines that are replaced -/

/-- The line that takes the object from `malloc` instead. -/
def mallocLine (indent value size : Text) : Text :=
  indent ++ value ++ " = call ptr @malloc(i64 " ++ size ++ ")"

/-- The line `new` is put in for a line of the body. -/
def Replaces (body line new : Text) : Prop :=
  ∃ (c : PoolCall) (size : Text), c.Written line ∧ c.size? = some size ∧ IsTagged body c.result ∧
    Name.value (Name.bare c.result) = c.result ∧ new = mallocLine c.indent c.result size

/-- **Which lines are replaced.** -/
theorem replacement?_eq_some_iff {body line new : Text} :
    replacement? (tagged body) line = some new ↔ Replaces body line new := by
  unfold replacement? Replaces
  simp only [Option.bind_eq_bind, Option.bind_eq_some_iff, poolCall?_eq_some_iff]
  constructor
  · rintro ⟨c, hwritten, h⟩
    split at h
    · next htagged =>
      obtain ⟨size, hsize, h⟩ := Option.bind_eq_some_iff.mp h
      obtain ⟨htag, hspelled⟩ := mem_tagged_iff.mp (List.contains_iff_mem.mp htagged)
      exact ⟨c, size, hwritten, hsize, htag, hspelled, (Option.some.inj h).symm⟩
    · cases h
  · rintro ⟨c, size, hwritten, hsize, htag, hspelled, rfl⟩
    refine ⟨c, hwritten, ?_⟩
    rw [if_pos (List.contains_iff_mem.mpr (mem_tagged_iff.mpr ⟨htag, hspelled⟩)), hsize]
    rfl

/-- The size that is read off a call is a part of its operands. -/
theorem PoolCall.infix_of_size? {c : PoolCall} {size : Text} (h : c.size? = some size) :
    size <:+: c.operands := by
  obtain ⟨operand, hoperand, hsize⟩ := Option.bind_eq_some_iff.mp h
  have hpiece := List.mem_of_getElem? hoperand
  rw [List.splitOn_eq_splitOnP] at hpiece
  have hword := (List.mem_filter.mp (List.mem_of_getLast? hsize)).1
  exact (Text.infix_of_mem_splitOnP hword).trans (Text.infix_of_mem_splitOnP hpiece)

private theorem PoolCall.Written.infix_operands {c : PoolCall} {line : Text} (h : c.Written line) :
    c.operands <:+: line := by
  obtain ⟨rest, rfl, hlast⟩ := h.text
  obtain ⟨before, after, rfl, hoperands, -⟩ := Text.last?_eq_some_iff.mp hlast
  obtain ⟨callee, -, behind, rfl, -⟩ := poolOperandsAt?_eq_some_iff.mp hoperands
  exact ⟨c.indent ++ (c.result ++ (" = call " ++ (before ++ '@' :: (callee ++ ['('])))), ')' :: behind,
    by simp⟩

/-- A line is put in for a line. -/
theorem Replaces.notMem_newline {body line new : Text} (h : Replaces body line new) (hline : '\n' ∉ line) :
    '\n' ∉ new := by
  obtain ⟨c, size, hwritten, hsize, -, -, rfl⟩ := h
  have hsub : size <:+: line := (PoolCall.infix_of_size? hsize).trans hwritten.infix_operands
  obtain ⟨rest, htext, -⟩ := hwritten.text
  have hparts : '\n' ∉ c.indent ∧ '\n' ∉ c.result := by
    rw [htext] at hline
    simp only [List.mem_append, not_or] at hline
    exact ⟨hline.1, hline.2.1⟩
  have hcall : '\n' ∉ (" = call ptr @malloc(i64 " : Text) := by decide
  simp only [mallocLine, List.mem_append, not_or]
  exact ⟨⟨⟨hparts, hcall⟩, fun hmem => hline (hsub.subset hmem)⟩, by decide⟩

theorem lines_substitute (body : Text) :
    (substitute body).1.lines = body.lines.map fun line => (replacement? (tagged body) line).getD line := by
  unfold substitute
  refine List.splitOn_intercalate '\n' ?_ (by simp [Text.lines])
  intro new hnew
  obtain ⟨line, hline, rfl⟩ := List.mem_map.mp hnew
  have hnot := Text.notMem_of_mem_lines hline
  cases hreplace : replacement? (tagged body) line with
  | none => exact hnot
  | some new => exact (replacement?_eq_some_iff.mp hreplace).notMem_newline hnot

/-! ### The value of an allocation -/

/-- A line that starts with a word and an equals sign is cut behind the word. -/
theorem cutAt?_word {indent word : Text} (hindent : ∀ c ∈ indent, Text.isBlank c) (hne : word ≠ [])
    (hword : ∀ c ∈ word, Text.isBlank c = false) (rest : Text) :
    Text.cutAt? " = " (Text.trimStart (indent ++ (word ++ (" = " ++ rest)))) = some (word, rest) := by
  have hstart : Text.trimStart (indent ++ (word ++ (" = " ++ rest))) = word ++ (" = " ++ rest) := by
    rw [Text.trimStart, List.dropWhile_append_of_pos hindent]
    refine Text.dropWhile_eq_self fun c hc => ?_
    obtain ⟨d, word, rfl⟩ := List.exists_cons_of_ne_nil hne
    rw [← Option.some.inj hc]
    exact hword d List.mem_cons_self
  rw [hstart, Text.cutAt?_eq_some_iff]
  refine ⟨rfl, fun x y he hy => ?_⟩
  obtain ⟨c, y, rfl⟩ := List.exists_cons_of_ne_nil hy
  have hc : c ≠ ' ' := by
    rintro rfl
    exact absurd (hword ' ' (by simp [he])) (by decide)
  simp [Text.startsWith, hc]

theorem PoolCall.Written.solid {c : PoolCall} {line : Text} (h : c.Written line) :
    c.result ≠ [] ∧ ∀ x ∈ c.result, Text.isBlank x = false := by
  obtain ⟨name, -, hresult, hname⟩ := h.result
  rw [hresult]
  refine ⟨by simp, fun x hx => ?_⟩
  rcases List.mem_cons.mp hx with rfl | hx
  · decide
  · exact hname x hx

/-- The value that a pool allocation assigns is the one that is read off it. -/
theorem PoolCall.Written.result_eq {c : PoolCall} {line value : Text} (h : c.Written line)
    (hassigned : Line.assigned? line = some value) : value = c.result := by
  obtain ⟨hne, hsolid⟩ := h.solid
  obtain ⟨rest, rfl, -⟩ := h.text
  obtain ⟨-, left, behind, hcut, rfl⟩ := Line.assigned?_eq_some_iff.mp hassigned
  have hcall : c.indent ++ (c.result ++ (" = call " ++ rest)) =
      c.indent ++ (c.result ++ (" = " ++ ("call " ++ rest))) := rfl
  rw [hcall, cutAt?_word h.indent hne hsolid] at hcut
  obtain ⟨rfl, -⟩ := Prod.mk.inj (Option.some.inj hcut)
  exact Text.trim_eq_self (fun x hx => hsolid x (List.mem_of_head? hx))
    fun x hx => hsolid x (List.mem_of_getLast? hx)

/-- The recogniser sees what follows the value and the keyword. -/
theorem PoolCall.Written.last?_of_eq {c : PoolCall} {indent value rest : Text}
    (h : c.Written (indent ++ (value ++ (" = call " ++ rest)))) (hindent : ∀ x ∈ indent, Text.isBlank x)
    (hne : value ≠ []) (hvalue : ∀ x ∈ value, Text.isBlank x = false) :
    Text.last? poolOperandsAt? rest = some c.operands := by
  obtain ⟨hresult, hsolid⟩ := h.solid
  obtain ⟨rest', htext, hlast⟩ := h.text
  have hcut := cutAt?_word hindent hne hvalue ("call " ++ rest)
  have hcut' := cutAt?_word h.indent hresult hsolid ("call " ++ rest')
  have hsame : indent ++ (value ++ (" = " ++ ("call " ++ rest))) =
      c.indent ++ (c.result ++ (" = " ++ ("call " ++ rest'))) := htext
  rw [hsame, hcut'] at hcut
  have hrest := List.append_cancel_left (Prod.mk.inj (Option.some.inj hcut)).2
  rw [← hrest]
  exact hlast

/-- **A line that was put in is no pool allocation.** A call in its size would be a call behind the one
that was replaced. -/
theorem Replaces.poolCall?_eq_none {body line new : Text} (h : Replaces body line new) :
    poolCall? new = none := by
  obtain ⟨c, size, hwritten, hsize, -, -, rfl⟩ := h
  rw [Option.eq_none_iff_forall_ne_some]
  intro c' hc'
  have hwritten' := poolCall?_eq_some_iff.mp hc'
  have hmalloc : mallocLine c.indent c.result size =
      c.indent ++ (c.result ++ (" = call " ++ ("ptr @malloc(i64 " ++ (size ++ [')'])))) := by
    simp only [mallocLine, List.append_assoc]
    rfl
  rw [hmalloc] at hwritten'
  have hlast := hwritten'.last?_of_eq hwritten.indent hwritten.solid.1 hwritten.solid.2
  obtain ⟨before, after, he, hafter, -⟩ := Text.last?_eq_some_iff.mp hlast
  obtain ⟨u, hu⟩ := exists_of_poolOperandsAt? hafter
  have hmallocName : ("ptr @malloc(i64 " : Text) = "ptr " ++ '@' :: 'm' :: "alloc(i64 " := by decide
  rw [hmallocName, List.append_assoc, hu] at he
  obtain ⟨z, hz⟩ := suffix_of_append_eq he (by decide)
  -- the callee is another one, so the call starts in the size
  cases z with
  | nil => simp at hz
  | cons d z =>
    obtain ⟨z, hz⟩ := suffix_of_append_eq (p := 'm' :: "alloc(i64 ") (List.cons.inj hz).2 (by decide)
    rw [← hu] at hz
    rcases List.append_eq_append_iff.mp hz with ⟨w, -, hw⟩ | ⟨s, hs, rfl⟩
    · rw [hu] at hw
      cases w <;> simp at hw
    · obtain ⟨rest, -, hlast⟩ := hwritten.text
      obtain ⟨-, after, -, hoperands, hnone⟩ := Text.last?_eq_some_iff.mp hlast
      obtain ⟨callee, -, behind, rfl, hclosed⟩ := poolOperandsAt?_eq_some_iff.mp hoperands
      obtain ⟨x, y, hxy⟩ := PoolCall.infix_of_size? hsize
      rw [← hxy, hs] at hclosed
      simp only [List.mem_append, not_or] at hclosed
      obtain ⟨operands', hcall⟩ := exists_poolOperandsAt?_append hafter hclosed.1.2.2 hclosed.2 behind
      rw [hnone ('@' :: (callee ++ '(' :: (x ++ z))) _ (by rw [← hxy, hs]; simp) (by simp)] at hcall
      cases hcall

/-! ### Allocations with all their parts -/

/-- A pool allocation, taken apart. -/
structure PoolAllocation where
  /-- The white space before the instruction. -/
  indent : Text
  /-- The value that holds the object. -/
  value : Text
  /-- What stands between the keyword and the callee. -/
  before : Text
  /-- The allocator. -/
  callee : Text
  /-- The operands. -/
  operands : Text
  /-- The size of the object. -/
  size : Text
  /-- What follows the operands. -/
  after : Text

/-- The line is a pool allocation with the given parts: an object of the given size, which is the third
operand, is assigned to a value of any spelling. -/
structure PoolAllocation.On (a : PoolAllocation) (line : Text) : Prop where
  /-- The parts in their order. -/
  text : line = a.indent ++ (a.value ++ (" = call " ++ (a.before ++ '@' :: (a.callee ++
    '(' :: (a.operands ++ ')' :: a.after)))))
  /-- The instruction is indented by blanks. -/
  indent : ∀ x ∈ a.indent, Text.isBlank x
  /-- The line assigns the value. -/
  assigned : Line.assigned? line = some a.value
  /-- The callee takes objects from a pool. -/
  callee : a.callee ∈ poolCallees
  /-- There are no parentheses within the operands. -/
  operands : ∀ x ∈ a.operands, x ≠ '(' ∧ x ≠ ')'
  /-- The size is the third operand. -/
  size : ∃ first second third rest, a.operands.splitOn ',' = first :: second :: third :: rest ∧
    Text.words third = [("i32" : Text), a.size]
  /-- No second call of such an allocator follows. -/
  after : ∀ callee ∈ poolCallees, Text.occurs ('@' :: (callee ++ ['('])) a.after = false

/-- The line that takes the same object from `malloc`. -/
def PoolAllocation.replacement (a : PoolAllocation) : Text :=
  mallocLine a.indent a.value a.size

/-- The value holds no blank, and is spelled the way it would be written. -/
def AsWritten (value : Text) : Prop :=
  Name.value (Name.bare value) = value ∧ ∀ c ∈ value, Text.isBlank c = false

namespace PoolAllocation

variable {a : PoolAllocation} {line : Text}

/-- No call begins where a closing parenthesis comes before the next opening one. -/
theorem poolOperandsAt?_eq_none {t : Text} (h : ∀ x ∈ t, x ≠ '(' ∧ x ≠ ')') (after : Text) :
    poolOperandsAt? (t ++ ')' :: after) = none := by
  rw [Option.eq_none_iff_forall_ne_some]
  intro operands hoperands
  obtain ⟨callee, hcallee, behind, he, -⟩ := poolOperandsAt?_eq_some_iff.mp hoperands
  have hname : ∀ callee ∈ poolCallees, ∀ x ∈ '@' :: callee, (x != '(' && x != ')') = true := by
    intro callee hcallee
    have hall : ∀ callee ∈ poolCallees, ('@' :: callee).all fun x => x != '(' && x != ')' := by decide
    exact List.all_eq_true.mp (hall callee hcallee)
  have hdrop := congrArg (List.dropWhile fun x => x != '(' && x != ')') he
  rw [List.dropWhile_append_of_pos fun x hx => by simp [h x hx], ← List.cons_append,
    List.dropWhile_append_of_pos (hname callee hcallee)] at hdrop
  simp at hdrop

/-- The call of a pool allocation is the last one on its line. -/
theorem On.last? (h : a.On line) : Text.last? poolOperandsAt? (a.before ++ '@' :: (a.callee ++
    '(' :: (a.operands ++ ')' :: a.after))) = some a.operands := by
  have hclosed : ')' ∉ a.operands := fun hmem => (h.operands ')' hmem).2 rfl
  refine Text.last?_eq_some_iff.mpr ⟨a.before, _, rfl,
    poolOperandsAt?_eq_some_iff.mpr ⟨a.callee, h.callee, a.after, rfl, hclosed⟩, fun x y he hx => ?_⟩
  obtain ⟨c, x, rfl⟩ := List.exists_cons_of_ne_nil hx
  rw [Option.eq_none_iff_forall_ne_some]
  intro operands hy
  obtain ⟨u, hu⟩ := exists_of_poolOperandsAt? hy
  have hcallee : '@' ∉ a.callee ++ ['('] := by
    have hall : ∀ callee ∈ poolCallees, '@' ∉ callee ++ ['('] := by decide
    exact hall a.callee h.callee
  have he : (a.callee ++ ['(']) ++ (a.operands ++ ')' :: a.after) = x ++ '@' :: 'i' :: u := by
    rw [← hu, ← List.cons_append] at *
    simpa using (List.cons.inj he).2
  obtain ⟨z, hz⟩ := suffix_of_append_eq he hcallee
  rw [← hu] at hz
  rcases List.append_eq_append_iff.mp hz with ⟨z, -, hz⟩ | ⟨w, hw, rfl⟩
  · -- the call starts behind the operands
    cases z with
    | nil => simp [hu] at hz
    | cons d z =>
      obtain ⟨callee, hcallee, behind, rfl, -⟩ := poolOperandsAt?_eq_some_iff.mp hy
      have hoccurs : Text.occurs ('@' :: (callee ++ ['('])) a.after :=
        Text.occurs_iff.mpr ⟨z, _, (List.cons.inj hz).2,
          Text.startsWith_iff.mpr ⟨operands ++ ')' :: behind, by simp⟩⟩
      rw [h.after callee hcallee] at hoccurs
      cases hoccurs
  · rw [poolOperandsAt?_eq_none fun x hx => h.operands x (by rw [hw]; exact List.mem_append_right _ hx)] at hy
    cases hy

/-- **An allocation of a value as it is written is replaced**, if the value is tagged. -/
theorem On.replaces (h : a.On line) {body : Text} (htagged : IsTagged body a.value)
    (hvalue : AsWritten a.value) : Replaces body line a.replacement := by
  obtain ⟨u, name, hu, hspells⟩ := (Line.isValue_of_assigned? h.assigned).exists_spells
  obtain ⟨first, second, third, rest, hsplit, hwords⟩ := h.size
  refine ⟨⟨a.indent, a.value, a.operands⟩, a.size, ⟨h.indent, ⟨u, ?_, hu, ?_⟩, _, h.text, h.last?⟩, ?_,
    htagged, hvalue.1, rfl⟩
  · cases hspells with
    | bare hne _ => exact hne
    | quoted _ => simp
  · intro x hx
    exact hvalue.2 x (by rw [hu]; exact List.mem_cons_of_mem _ hx)
  · unfold PoolCall.size?
    dsimp only
    rw [hsplit]
    simp [hwords]

/-- An allocation of any other value stays. -/
theorem On.not_replaces (h : a.On line) {body new : Text} (hvalue : ¬ AsWritten a.value) :
    ¬ Replaces body line new := by
  rintro ⟨c, size, hwritten, -, -, hspelled, -⟩
  have he := hwritten.result_eq h.assigned
  exact hvalue (he ▸ ⟨hspelled, hwritten.solid.2⟩)

end PoolAllocation

/-! ### All lines -/

/-- What becomes of a body, and how many of its lines are replaced. -/
structure Substitutes (body new : Text) (count : Nat) : Prop where
  /-- No line is added or lost. -/
  length_eq : new.lines.length = body.lines.length
  /-- A pool allocation of a tagged object is replaced, if its value is as it is written. -/
  replaced : ∀ (i : Nat) (line : Text) (a : PoolAllocation), body.lines[i]? = some line → a.On line →
    IsTagged body a.value → AsWritten a.value → new.lines[i]? = some a.replacement
  /-- It stays, if its value is not. -/
  kept : ∀ (i : Nat) (line : Text) (a : PoolAllocation), body.lines[i]? = some line → a.On line →
    ¬ AsWritten a.value → new.lines[i]? = some line
  /-- No other line changes than those that are read as pool allocations of tagged objects. -/
  changed_iff : ∀ (i : Nat) (line : Text), body.lines[i]? = some line →
    (new.lines[i]? ≠ some line ↔ ∃ line', Replaces body line line')
  /-- The lines that change are counted. -/
  count_eq : count = (body.lines.zip new.lines).countP fun p => p.1 ≠ p.2

theorem getElem?_lines_substitute {body line : Text} {i : Nat} (h : body.lines[i]? = some line) :
    (substitute body).1.lines[i]? = some ((replacement? (tagged body) line).getD line) := by
  rw [lines_substitute, List.getElem?_map, h]
  rfl

theorem replacement?_eq_none_iff {body line : Text} :
    replacement? (tagged body) line = none ↔ ∀ new, ¬ Replaces body line new := by
  rw [Option.eq_none_iff_forall_ne_some]
  exact forall_congr' fun new => not_congr replacement?_eq_some_iff

/-- A line that is replaced changes. -/
theorem getD_replacement?_ne_iff {body line : Text} :
    (replacement? (tagged body) line).getD line ≠ line ↔ (replacement? (tagged body) line).isSome := by
  cases hreplace : replacement? (tagged body) line with
  | none => simp
  | some new =>
    have hnew := replacement?_eq_some_iff.mp hreplace
    obtain ⟨c, size, hwritten, -⟩ := id hnew
    simp only [Option.getD_some, Option.isSome_some, iff_true]
    -- only the old line is a pool allocation
    rintro rfl
    have hnone := hnew.poolCall?_eq_none
    rw [poolCall?_eq_some_iff.mpr hwritten] at hnone
    cases hnone

/-- **An allocation of a tagged object is replaced if and only if its value is as it is written**: it
takes its object from `malloc` then, with the same size and the same indentation. All other lines stay,
and the number of replaced lines is counted. -/
theorem substitute_exact (body : Text) : Substitutes body (substitute body).1 (substitute body).2 where
  length_eq := by rw [lines_substitute, List.length_map]
  replaced i line a hline ha htagged hvalue := by
    rw [getElem?_lines_substitute hline, replacement?_eq_some_iff.mpr (ha.replaces htagged hvalue)]
    rfl
  kept i line a hline ha hvalue := by
    rw [getElem?_lines_substitute hline, replacement?_eq_none_iff.mpr fun new => ha.not_replaces hvalue]
    rfl
  changed_iff i line hline := by
    rw [getElem?_lines_substitute hline, (Option.some_injective Text).ne_iff, getD_replacement?_ne_iff,
      Option.isSome_iff_exists]
    exact exists_congr fun new => replacement?_eq_some_iff
  count_eq := by
    have hzip := List.zip_map' (f := id) (g := fun line => (replacement? (tagged body) line).getD line)
      (l := body.lines)
    rw [List.map_id] at hzip
    rw [lines_substitute, hzip, List.countP_map]
    refine List.countP_congr fun line _ => ?_
    rw [Function.comp_apply, decide_eq_true_iff, ne_comm]
    exact getD_replacement?_ne_iff.symm

/-- The lines of a body with a numbered object that it tags. -/
def numberedLines : List Text :=
  ["", "top:", "  %5 = call ptr @ijl_gc_pool_alloc(ptr %ptls, i32 752, i32 32)",
    "  %\"5.tag_addr\" = getelementptr inbounds i64, ptr %5, i64 -1", "  ret ptr %5", ""]

/-- The body. -/
def numberedBody : Text :=
  Text.unlines numberedLines

/-- The allocation in it. -/
def numberedAllocation : PoolAllocation where
  indent := "  "
  value := "%5"
  before := "ptr "
  callee := "ijl_gc_pool_alloc"
  operands := "ptr %ptls, i32 752, i32 32"
  size := "32"
  after := []

private theorem lines_numberedBody : numberedBody.lines = numberedLines :=
  Text.lines_unlines (List.cons_ne_nil _ _) (by decide)

private theorem on_numberedAllocation :
    numberedAllocation.On "  %5 = call ptr @ijl_gc_pool_alloc(ptr %ptls, i32 752, i32 32)" where
  text := by decide
  indent := Text.forall_mem_of_all (by decide)
  assigned := by decide
  callee := by decide
  operands := by
    have hall : numberedAllocation.operands.all fun x => x != '(' && x != ')' := by decide
    intro x hx
    simpa using List.all_eq_true.mp hall x hx
  size := ⟨"ptr %ptls", " i32 752", " i32 32", [], by decide, by decide⟩
  after := by decide

/-- A pool allocation of a tagged object that is not replaced. -/
theorem numberedBody_not_substituted :
    (∃ line ∈ numberedBody.lines, numberedAllocation.On line) ∧
      IsTagged numberedBody numberedAllocation.value ∧ substitute numberedBody = (numberedBody, 0) := by
  refine ⟨⟨_, ?_, on_numberedAllocation⟩, ?_, by decide +kernel⟩
  · rw [lines_numberedBody]
    exact .tail _ (.tail _ (.head _))
  · rw [IsTagged, lines_numberedBody]
    exact ⟨_, .tail _ (.tail _ (.tail _ (.head _))), "%\"5.tag_addr\"", by decide, by decide⟩

end Allocation

end Freestanding
