import Freestanding.Name.Compiled
import Freestanding.Proofs.Name.Quoting
import Freestanding.Proofs.Text.Numerals

/-!
# Compiled names can be told apart

A compiled name has a stem and a counter with an underscore between them, and the stem may have underscores
and digits of its own.  Still there is only one way to read it: digits hold no underscore, so the last
underscore of the name is the one before the counter.  A name is read exactly if it has these parts and the
counter has 64 bits, whether it is written with sigil and quotes or without.

## Main definitions

* `CompiledName.spelling` — the name that the host gives to a compiled function.

## Main results

* `CompiledName.parse?_eq_some_iff` — **the names that are read as a compiled name.**
* `CompiledName.parse?_exact` — what is spelled is read, by itself and as a symbol, and nothing else is.
-/

namespace Freestanding

/-- A name that starts with no sigil and has no quotes at its ends is its own bare name. -/
theorem Name.bare_eq_self {name : Text} (hhead : ∀ c, name.head? = some c → c ≠ '@' ∧ c ≠ '%' ∧ c ≠ '"')
    (hlast : name.getLast? ≠ some '"') : Name.bare name = name := by
  have hsigil : name.dropWhile (fun c => c == '@' || c == '%') = name :=
    Text.dropWhile_eq_self fun c hc => by simp [hhead c hc]
  have hquote : name.dropWhile (· == '"') = name :=
    Text.dropWhile_eq_self fun c hc => by simp [hhead c hc]
  rw [Name.bare, hsigil, hquote]
  refine Text.dropWhileEnd_eq_self fun c hc => beq_eq_false_iff_ne.mpr fun he => ?_
  exact hlast (he ▸ hc)

namespace CompiledName

variable {token stem digits : Text}

/-! ### The last underscore -/

/-- The stem ends before the last underscore. -/
theorem parse?_of_bare (h : Name.bare token = "julia_" ++ (stem ++ '_' :: digits)) (hdigits : '_' ∉ digits) :
    parse? token = if stem = [] ∨ '\n' ∈ stem then none else
      (Text.toWord? digits).map fun counter => ⟨stem, counter⟩ := by
  have hreverse : (stem ++ '_' :: digits).reverse = digits.reverse ++ '_' :: stem.reverse := by simp
  have hkeep : ∀ c ∈ digits.reverse, (c != '_') = true := fun c hc =>
    bne_iff_ne.mpr fun he => hdigits (he ▸ List.mem_reverse.mp hc)
  have htake : (stem ++ '_' :: digits).reverse.takeWhile (· != '_') = digits.reverse := by
    rw [hreverse, List.takeWhile_append_of_pos hkeep]
    simp
  have hdrop : (stem ++ '_' :: digits).reverse.dropWhile (· != '_') = '_' :: stem.reverse := by
    rw [hreverse, List.dropWhile_append_of_pos hkeep]
    simp
  rw [parse?, Text.stripPrefix?_eq_some_iff.mpr h]
  simp only [Option.bind_eq_bind, Option.bind_some, htake, hdrop, List.reverse_reverse]

private theorem parse?_of_notMem {name : Text} (h : Name.bare token = "julia_" ++ name) (hname : '_' ∉ name) :
    parse? token = none := by
  have hdrop : name.reverse.dropWhile (· != '_') = [] :=
    List.dropWhile_eq_nil_iff.mpr fun c hc => bne_iff_ne.mpr fun he => hname (he ▸ List.mem_reverse.mp hc)
  rw [parse?, Text.stripPrefix?_eq_some_iff.mpr h]
  simp only [Option.bind_eq_bind, Option.bind_some, hdrop]

private theorem exists_last_underscore {name : Text} (h : '_' ∈ name) :
    ∃ stem digits, name = stem ++ '_' :: digits ∧ '_' ∉ digits := by
  obtain ⟨digits, stem, hreverse, hdigits⟩ := List.eq_append_cons_of_mem (List.mem_reverse.mpr h)
  refine ⟨stem.reverse, digits.reverse, ?_, fun hmem => hdigits (List.mem_reverse.mp hmem)⟩
  rw [← List.reverse_reverse name, hreverse]
  simp

private theorem underscore_notMem_of_forall (h : ∀ c ∈ digits, c.isDigit) : '_' ∉ digits := fun hmem =>
  absurd (h '_' hmem) (by decide)

/-- **The names that are read as a compiled name**: those of a stem, an underscore and digits, where the
digits denote the counter. -/
theorem parse?_eq_some_iff {c : CompiledName} : parse? token = some c ↔ c.stem ≠ [] ∧ '\n' ∉ c.stem ∧
    ∃ digits, Name.bare token = "julia_" ++ (c.stem ++ '_' :: digits) ∧ digits ≠ [] ∧
      (∀ d ∈ digits, d.isDigit) ∧ Nat.ofDigitChars 10 digits 0 = c.counter.toNat := by
  constructor
  · intro h
    obtain ⟨name, hname, -⟩ := Option.bind_eq_some_iff.mp h
    have hbare := Text.stripPrefix?_eq_some_iff.mp hname
    by_cases hmem : '_' ∈ name
    · obtain ⟨stem, digits, rfl, hdigits⟩ := exists_last_underscore hmem
      rw [parse?_of_bare hbare hdigits] at h
      split at h
      · cases h
      · next hstem =>
        rw [not_or] at hstem
        obtain ⟨counter, hword, rfl⟩ := Option.map_eq_some_iff.mp h
        exact ⟨hstem.1, hstem.2, digits, hbare, Text.toWord?_eq_some_iff.mp hword⟩
    · rw [parse?_of_notMem hbare hmem] at h
      cases h
  · rintro ⟨hne, hline, digits, hbare, hword⟩
    rw [parse?_of_bare hbare (underscore_notMem_of_forall hword.2.1), if_neg (by simp [hne, hline]),
      Text.toWord?_eq_some_iff.mpr hword]
    rfl

theorem bare_eq_of_parse? {c : CompiledName} (h : parse? token = some c) :
    ∃ digits, Name.bare token = "julia_" ++ (c.stem ++ '_' :: digits) ∧ digits.all Char.isDigit := by
  obtain ⟨-, -, digits, hbare, -, hall, -⟩ := parse?_eq_some_iff.mp h
  exact ⟨digits, hbare, List.all_eq_true.mpr hall⟩

/-- What the host does not add to a stem by itself comes from the stem. -/
theorem mem_stem_of_mem {c : CompiledName} (h : parse? token = some c) {x : Char} (hx : x ∈ token)
    (hadded : x ∉ ("@%\"julia_" : Text)) (hdigit : x.isDigit = false) : x ∈ c.stem := by
  obtain ⟨digits, hbare, hdigits⟩ := bare_eq_of_parse? h
  have hne : ∀ d ∈ ("@%\"julia_" : Text), x ≠ d := fun d hd he => hadded (he ▸ hd)
  have hin : x ∈ "julia_" ++ (c.stem ++ '_' :: digits) :=
    hbare ▸ Name.mem_bare ⟨hne '@' (by decide), hne '%' (by decide)⟩ (hne '"' (by decide)) hx
  rcases List.mem_append.mp hin with hin | hin
  · exact absurd (List.mem_append_right ['@', '%', '"'] hin) hadded
  · rcases List.mem_append.mp hin with hin | hin
    · exact hin
    · rcases List.mem_cons.mp hin with he | hin
      · exact absurd he (hne '_' (by decide))
      · rw [List.all_eq_true.mp hdigits x hin] at hdigit
        cases hdigit

/-! ### Spelling -/

/-- The name that the host gives to a function: the stem and the counter, in decimal. -/
def spelling (c : CompiledName) : Text :=
  "julia_" ++ (c.stem ++ '_' :: Text.decimal c.counter.toNat)

/-- A name of this form, written in any way, is read. -/
theorem parse?_of_bare_eq_spelling {c : CompiledName} (hne : c.stem ≠ []) (hline : '\n' ∉ c.stem)
    (h : Name.bare token = c.spelling) : parse? token = some c :=
  parse?_eq_some_iff.mpr ⟨hne, hline, Text.decimal c.counter.toNat, h,
    Text.toWord?_eq_some_iff.mp (Text.toWord?_decimal c.counter)⟩

private theorem bare_spelling (c : CompiledName) : Name.bare c.spelling = c.spelling := by
  have hhead : c.spelling.head? = some 'j' := rfl
  have hlast : c.spelling.getLast? = (Text.decimal c.counter.toNat).getLast? := by
    have hne : Text.decimal c.counter.toNat ≠ [] := Nat.toDigits_ne_nil
    change ("julia_" ++ (c.stem ++ '_' :: Text.decimal c.counter.toNat)).getLast? = _
    rw [← List.append_assoc, List.append_cons, List.getLast?_append_of_ne_nil _ hne]
  refine Name.bare_eq_self (fun d hd => ?_) fun hquote => ?_
  · rw [hhead] at hd
    rw [← Option.some.inj hd]
    decide
  · -- the last character is a digit of the counter
    rw [hlast] at hquote
    exact absurd (Text.isDigit_of_mem_decimal (List.mem_of_getLast? hquote)) (by decide)

private theorem quote_notMem_spelling {c : CompiledName} (h : '"' ∉ c.stem) : '"' ∉ c.spelling := by
  have hdigits : '"' ∉ Text.decimal c.counter.toNat := fun hmem =>
    absurd (Text.isDigit_of_mem_decimal hmem) (by decide)
  change '"' ∉ "julia_" ++ (c.stem ++ '_' :: Text.decimal c.counter.toNat)
  simp [h, hdigits]

/-- **Compiled names can be told apart.**  The spelling of a stem and a counter is read as this stem and this
counter, by itself and, if there are no quotes in it, as a symbol.  And a name is read as a stem and a counter
only if it is made up of the stem, an underscore and digits for the counter. -/
theorem parse?_exact :
    (∀ (stem : Text) (n : UInt64), stem ≠ [] → '\n' ∉ stem →
      parse? (spelling ⟨stem, n⟩) = some ⟨stem, n⟩ ∧
      ('"' ∉ stem → parse? (Name.symbol (spelling ⟨stem, n⟩)) = some ⟨stem, n⟩)) ∧
    ∀ (token stem : Text) (n : UInt64), parse? token = some ⟨stem, n⟩ ↔ stem ≠ [] ∧ '\n' ∉ stem ∧
      ∃ digits, Name.bare token = "julia_" ++ (stem ++ '_' :: digits) ∧ digits ≠ [] ∧
        (∀ d ∈ digits, d.isDigit) ∧ Nat.ofDigitChars 10 digits 0 = n.toNat := by
  refine ⟨fun stem n hne hline => ⟨?_, fun hquote => ?_⟩, fun token stem n => parse?_eq_some_iff⟩
  · exact parse?_of_bare_eq_spelling hne hline (bare_spelling _)
  · exact parse?_of_bare_eq_spelling hne hline (Name.bare_symbol (quote_notMem_spelling hquote))

/-- The stem ends like a counter, and needs quotes; the counter is the greatest, and one more is too much. -/
theorem parse?_exact_push : ("push!_7_" : Text) ≠ [] ∧ '\n' ∉ ("push!_7_" : Text) ∧ '"' ∉ ("push!_7_" : Text) ∧
    parse? "julia_push!_7__18446744073709551615" = some ⟨"push!_7_", 18446744073709551615⟩ ∧
    parse? "@\"julia_push!_7__18446744073709551615\"" = some ⟨"push!_7_", 18446744073709551615⟩ ∧
    parse? "julia_push!_7__18446744073709551616" = none := by
  have hne : ("push!_7_" : Text) ≠ [] := by decide
  have hline : '\n' ∉ ("push!_7_" : Text) := by decide
  have hquote : '"' ∉ ("push!_7_" : Text) := by decide
  obtain ⟨hread, hsymbol⟩ := parse?_exact.1 "push!_7_" 18446744073709551615 hne hline
  exact ⟨hne, hline, hquote, hread, hsymbol hquote, by decide⟩

end CompiledName

end Freestanding
