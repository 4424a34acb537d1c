import Freestanding.Binding
import Freestanding.Proofs.CallGraph.Names

/-!
# Names in the output are plain

Whatever a name of the host looks like, the names made from it for the output consist of letters,
digits, underscores and dots.  So they hold no slash that could lead to another directory, no line feed,
and nothing that would start a comment or a symbol.

## Main definitions

* `Name.Plain` — all characters of a name are plain.

## Main results

* `ScopePath.plain_stem`, `ScopePath.plain_mangle` — the names of scopes and of their members.
* `CallGraph.plain_of_collect` — the names of functions.
-/

namespace Freestanding

namespace Name

/-- All characters of a name are plain. -/
def Plain (name : Text) : Prop :=
  ∀ c ∈ name, isPlain c

variable {name name' : Text}

theorem Plain.notMem (h : Plain name) {c : Char} (hc : isPlain c = false) : c ∉ name := by
  intro hmem
  have := h c hmem
  rw [hc] at this
  exact Bool.false_ne_true this

@[simp] theorem plain_nil : Plain [] := by
  simp [Plain]

theorem Plain.append (h : Plain name) (h' : Plain name') : Plain (name ++ name') := by
  intro c hc
  rcases List.mem_append.mp hc with hc | hc
  · exact h c hc
  · exact h' c hc

theorem Plain.cons {c : Char} (hc : isPlain c) (h : Plain name) : Plain (c :: name) := by
  intro d hd
  rcases List.mem_cons.mp hd with rfl | hd
  · exact hc
  · exact h d hd

theorem plain_sanitize (name : Text) : Plain (sanitize name) := by
  intro c hc
  obtain ⟨d, -, rfl⟩ := List.mem_map.mp hc
  by_cases hd : isPlain d
  · rw [if_pos hd]
    exact hd
  · rw [if_neg hd]
    rfl

theorem plain_decimal (n : Nat) : Plain (Text.decimal n) := by
  intro c hc
  have hdigit := Nat.isDigit_of_mem_toDigits (by decide) (by decide) hc
  simp [isPlain, Char.isAlphanum, hdigit]

/-- A plain name written as a symbol: a sigil, and then plain characters or quotes. -/
theorem Plain.exists_symbol_eq (h : Plain name) :
    ∃ tail, symbol name = '@' :: tail ∧ ∀ c ∈ tail, c = '"' ∨ isPlain c := by
  rw [symbol, write]
  split
  · exact ⟨name, rfl, fun c hc => .inr (h c hc)⟩
  · refine ⟨_, rfl, fun c hc => ?_⟩
    rcases List.mem_cons.mp hc with rfl | hc
    · exact .inl rfl
    · rcases List.mem_append.mp hc with hc | hc
      · exact .inr (h c hc)
      · exact .inl (List.mem_singleton.mp hc)

/-- The symbol of a plain name: the name behind a sigil, in quotes if it is empty or starts with a digit. -/
theorem Plain.symbol_eq (h : Plain name) : symbol name =
    if name.head?.any (!·.isDigit) then '@' :: name else '@' :: '"' :: (name ++ ['"']) := by
  have hchars : ∀ c ∈ name, Token.isNameChar c := fun c hc => by
    have hplain := h c hc
    simp only [isPlain, Bool.or_eq_true] at hplain
    simp only [Token.isNameChar, Bool.or_eq_true]
    tauto
  have hidentifier : isIdentifier name = name.head?.any (!·.isDigit) := by
    cases name with
    | nil => rfl
    | cons c cs =>
      have hrest : cs.all Token.isNameChar :=
        List.all_eq_true.mpr fun d hd => hchars d (List.mem_cons_of_mem c hd)
      rw [isIdentifier, hchars c List.mem_cons_self, hrest]
      simp
  rw [symbol, write, hidentifier]

theorem toNat_lt_of_isPlain {c : Char} (h : isPlain c) : c.toNat < 128 := by
  have hranges : ((((decide ('A'.val ≤ c.val ∧ c.val ≤ 'Z'.val) ||
      (decide ('a'.val ≤ c.val) && decide (c.val ≤ 'z'.val))) ||
      (decide ('0'.val ≤ c.val) && decide (c.val ≤ '9'.val))) || c == '_') || c == '.') = true := h
  simp only [Bool.or_eq_true, Bool.and_eq_true, decide_eq_true_eq, beq_iff_eq,
    UInt32.le_iff_toNat_le] at hranges
  change c.val.toNat < 128
  rcases hranges with (((⟨-, h⟩ | ⟨-, h⟩) | ⟨-, h⟩) | rfl) | rfl
  · exact lt_of_le_of_lt h (by decide)
  · exact lt_of_le_of_lt h (by decide)
  · exact lt_of_le_of_lt h (by decide)
  · decide
  · decide

/-- Plain characters are no blanks. -/
theorem isBlank_of_isPlain {c : Char} (h : isPlain c) : Text.isBlank c = false := by
  have hall : ∀ n < 128, isPlain (Char.ofNat n) → Text.isBlank (Char.ofNat n) = false := by decide +kernel
  have hlt := toNat_lt_of_isPlain h
  rw [← Char.ofNat_toNat c] at h ⊢
  exact hall c.toNat hlt h

/-- Nothing in the symbol of a plain name ends a word, the code or a line. -/
theorem Plain.forall_mem_symbol (h : Plain name) :
    ∀ c ∈ symbol name, Text.isBlank c = false ∧ c ≠ ';' ∧ c ≠ '\n' := by
  obtain ⟨tail, hsymbol, htail⟩ := h.exists_symbol_eq
  rw [hsymbol]
  intro c hc
  rcases List.mem_cons.mp hc with rfl | hc
  · decide
  · rcases htail c hc with rfl | hplain
    · decide
    · refine ⟨isBlank_of_isPlain hplain, ?_, ?_⟩
      all_goals
        rintro rfl
        exact absurd hplain (by decide)

end Name

namespace ScopePath

open Name

theorem plain_stem (p : ScopePath) : Plain p.stem := by
  have hall : ∀ ns : List Text, (∀ n ∈ ns, Plain n) → Plain (['_'].intercalate ns) := by
    intro ns hns
    induction ns with
    | nil => exact plain_nil
    | cons n ns ih =>
      cases ns with
      | nil => simpa using hns n (by simp)
      | cons m ns =>
        rw [List.intercalate_cons_cons]
        have hn : Plain (n ++ ['_']) := (hns n (by simp)).append (.cons rfl plain_nil)
        exact hn.append (ih fun k hk => hns k (List.mem_cons_of_mem n hk))
  refine hall _ fun n hn => ?_
  obtain ⟨name, -, rfl⟩ := List.mem_map.mp hn
  exact plain_sanitize name

theorem plain_mangle (p : ScopePath) (name : Text) : Plain (p.mangle name) := by
  rw [mangle]
  split
  · exact plain_sanitize name
  · exact p.plain_stem.append (.cons rfl (plain_sanitize name))

end ScopePath

namespace CallGraph

open Name

private theorem plain_suffixed {base : Text} (h : Plain base) (k : Nat) : Plain (suffixed base k) :=
  h.append (.cons rfl (plain_decimal k))

private theorem plain_freshName {base : Text} (h : Plain base) (overload : Nat) (taken : List Text) :
    Plain (freshName base overload taken) := by
  rw [freshName]
  split
  · exact h
  · exact plain_suffixed h _

/-- The functions of a call graph have plain names. -/
theorem plain_of_collect {host : Host} {entry : Handle} {g : CallGraph}
    (hg : (collect host entry).2 = .ok g) {n : Node} (hn : n ∈ g.nodes) : Plain n.mangled := by
  obtain ⟨before, after, he⟩ := List.append_of_mem hn
  rw [named_of_collect hg before n after he]
  exact plain_freshName (ScopePath.plain_mangle _ _) _ _

end CallGraph

end Freestanding
