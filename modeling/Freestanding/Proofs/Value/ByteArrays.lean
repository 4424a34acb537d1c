import Freestanding.Proofs.Binding.Residue
import Freestanding.Proofs.Line.Values
import Freestanding.Proofs.Text.Numerals
import Freestanding.Proofs.Text.Octets

/-!
# Byte arrays survive their lines

A string, or a value with a fixed layout, becomes a constant array of bytes.  The line that defines it has
the bytes between quotes, and the bytes that cannot stand there as characters are escaped.  This module reads
such lines.  An escape is a backslash with two hexadecimal digits; it is over after these two, whatever
follows, so a byte that happens to be a digit may stand right behind it.

## Main definitions

* `Constant.unescape` — the bytes that the characters between the quotes stand for.
* `Constant.ArrayLine`, `Constant.ArrayLine.read?` — what a line says about an array of bytes.
* `Value.content?` — the bytes of a value that becomes such an array.

## Main results

* `Constant.unescape_escape` — **escapes can be read.**
* `Constant.isPrintable_of_mem_escape` — they are printable, and hold no quote.
* `Constant.exists_of_escape_eq` — each backslash has its two digits.
* `Constant.read?_definition`, `Constant.read?_declaration` — lines can be read.
* `Constant.byteArrays_survive` — **byte arrays survive their lines.**
-/

namespace Freestanding

namespace Constant

/-! ### Escapes -/

/-- The value of a hexadecimal digit. -/
def hexDigit? (c : Char) : Option Nat :=
  if '0' ≤ c ∧ c ≤ '9' then some (c.toNat - 48)
  else if 'A' ≤ c ∧ c ≤ 'F' then some (c.toNat - 55)
  else if 'a' ≤ c ∧ c ≤ 'f' then some (c.toNat - 87)
  else none

/-- The bytes that the characters of a string constant stand for: a backslash and two hexadecimal digits are
one byte, and every other character is itself. -/
def unescape : Text → List UInt8
  | [] => []
  | '\\' :: x :: y :: t =>
    match hexDigit? x, hexDigit? y with
    | some high, some low => (16 * high + low).toUInt8 :: unescape t
    | _, _ => Text.encode ['\\'] ++ unescape (x :: y :: t)
  | c :: t => Text.encode [c] ++ unescape t

/-- A printable ASCII character. -/
def isPrintable (c : Char) : Bool :=
  ' ' ≤ c && c ≤ '~'

/-- An upper-case hexadecimal digit. -/
def isUpperHex (c : Char) : Bool :=
  '0' ≤ c && c ≤ '9' || 'A' ≤ c && c ≤ 'F'

/-- A character that is the upper-case digit of a number, and does not end a string or an escape. -/
structure IsDigit (c : Char) (n : Nat) : Prop where
  value : hexDigit? c = some n
  upper : isUpperHex c
  printable : isPrintable c
  ne_quote : c ≠ '"'
  ne_backslash : c ≠ '\\'

private theorem isDigit_upperDigit {n : Nat} (hn : n < 16) : IsDigit (Text.upperDigit n) n := by
  have hall : ∀ n < 16, hexDigit? (Text.upperDigit n) = some n ∧ isUpperHex (Text.upperDigit n) ∧
      isPrintable (Text.upperDigit n) ∧ Text.upperDigit n ≠ '"' ∧ Text.upperDigit n ≠ '\\' := by decide
  obtain ⟨hvalue, hupper, hprint, hquote, hback⟩ := hall n hn
  exact ⟨hvalue, hupper, hprint, hquote, hback⟩

/-- A byte that stands for itself is a character of that code. -/
theorem plainByte_spec : ∀ n < 127, isPlainByte n.toUInt8 →
    Text.encode [Char.ofNat n] = [n.toUInt8] ∧ isPrintable (Char.ofNat n) ∧ Char.ofNat n ≠ '"' ∧
    Char.ofNat n ≠ '\\' := by
  decide +kernel

/-- A byte is written as itself, or as its two digits behind a backslash. -/
theorem escapeByte_cases (b : UInt8) :
    (∃ c, escapeByte b = [c] ∧ Text.encode [c] = [b] ∧ isPrintable c ∧ c ≠ '"' ∧ c ≠ '\\') ∨
    ∃ x y, escapeByte b = ['\\', x, y] ∧ IsDigit x (b.toNat / 16) ∧ IsDigit y (b.toNat % 16) := by
  by_cases hplain : isPlainByte b
  · have hlt : b.toNat < 127 := by
      simp only [isPlainByte, Bool.and_eq_true, decide_eq_true_eq] at hplain
      exact UInt8.lt_iff_toNat_lt.mp hplain.1.1.2
    have hbyte : b.toNat.toUInt8 = b := UInt8.ofNat_toNat
    have hspec := plainByte_spec b.toNat hlt (by rwa [hbyte])
    rw [hbyte] at hspec
    exact .inl ⟨Char.ofNat b.toNat, if_pos hplain, hspec⟩
  · have hhigh : b.toNat / 16 < 16 := Nat.div_lt_of_lt_mul b.toNat_lt
    have hlow : b.toNat % 16 < 16 := Nat.mod_lt _ (by decide)
    refine .inr ⟨_, _, (if_neg hplain).trans ?_, isDigit_upperDigit hhigh, isDigit_upperDigit hlow⟩
    rw [Text.hexUpper, Text.hexUpper, Text.hexUpper, Nat.mod_eq_of_lt hhigh]
    rfl

@[simp] theorem escape_cons (b : UInt8) (bytes : List UInt8) :
    escape (b :: bytes) = escapeByte b ++ escape bytes := rfl

/-- Only the two digits behind a backslash belong to it. -/
theorem unescape_escapeByte (b : UInt8) (t : Text) : unescape (escapeByte b ++ t) = b :: unescape t := by
  rcases escapeByte_cases b with ⟨c, he, hbyte, -, -, hc⟩ | ⟨x, y, he, hx, hy⟩
  · have hself : unescape (c :: t) = Text.encode [c] ++ unescape t := by
      rw [unescape.eq_def]
      split
      · contradiction
      · next heq => exact absurd (List.cons.inj heq).1 hc
      · next heq =>
        obtain ⟨rfl, rfl⟩ := List.cons.inj heq
        rfl
    rw [he, List.singleton_append, hself, hbyte, List.singleton_append]
  · rw [he]
    simp only [List.cons_append, List.nil_append, unescape, hx.value, hy.value]
    rw [Nat.div_add_mod, Nat.toUInt8, UInt8.ofNat_toNat]

/-- **Escapes can be read.** -/
theorem unescape_escape (bytes : List UInt8) : unescape (escape bytes) = bytes := by
  induction bytes with
  | nil => rfl
  | cons b bytes ih => rw [escape_cons, unescape_escapeByte, ih]

private theorem isPrintable_of_mem_escapeByte {b : UInt8} {c : Char} (hc : c ∈ escapeByte b) :
    isPrintable c ∧ c ≠ '"' := by
  rcases escapeByte_cases b with ⟨d, he, -, hprint, hquote, -⟩ | ⟨x, y, he, hx, hy⟩
  · rw [he, List.mem_singleton] at hc
    rw [hc]
    exact ⟨hprint, hquote⟩
  · simp only [he, List.mem_cons, List.not_mem_nil, or_false] at hc
    rcases hc with rfl | rfl | rfl
    · decide
    · exact ⟨hx.printable, hx.ne_quote⟩
    · exact ⟨hy.printable, hy.ne_quote⟩

/-- Escapes are printable, and hold no quote. -/
theorem isPrintable_of_mem_escape {bytes : List UInt8} {c : Char} (hc : c ∈ escape bytes) :
    isPrintable c ∧ c ≠ '"' := by
  obtain ⟨b, -, hc⟩ := List.mem_flatMap.mp hc
  exact isPrintable_of_mem_escapeByte hc

/-- Each backslash has its two digits: it is where some byte is escaped, and behind the digits the next byte
starts. -/
theorem exists_of_escape_eq {bytes : List UInt8} {before after : Text}
    (h : escape bytes = before ++ '\\' :: after) :
    ∃ front b back x y, bytes = front ++ b :: back ∧ before = escape front ∧ after = x :: y :: escape back ∧
      isUpperHex x ∧ isUpperHex y := by
  induction bytes generalizing before with
  | nil => simp [escape] at h
  | cons b bytes ih =>
    rw [escape_cons] at h
    rcases escapeByte_cases b with ⟨c, he, -, -, -, hc⟩ | ⟨x, y, he, hx, hy⟩
    · have hnone : '\\' ∉ escapeByte b := by
        rw [he, List.mem_singleton]
        exact hc.symm
      obtain ⟨before, rfl, hrest⟩ := Text.exists_append_of_notMem hnone h
      obtain ⟨front, b', back, x, y, rfl, rfl, hafter⟩ := ih hrest
      exact ⟨b :: front, b', back, x, y, rfl, rfl, hafter⟩
    · rw [he] at h
      cases before with
      | nil =>
        obtain ⟨-, h⟩ := List.cons.inj h
        exact ⟨[], b, bytes, x, y, rfl, rfl, h.symm, hx.upper, hy.upper⟩
      | cons d before =>
        -- a later backslash is none of the two digits
        obtain ⟨hd, htail⟩ := List.cons.inj h
        have hnone : '\\' ∉ [x, y] := by
          simp only [List.mem_cons, List.not_mem_nil, or_false, not_or]
          exact ⟨hx.ne_backslash.symm, hy.ne_backslash.symm⟩
        obtain ⟨before, rfl, hrest⟩ := Text.exists_append_of_notMem hnone htail
        obtain ⟨front, b', back, x, y, rfl, rfl, hafter⟩ := ih hrest
        exact ⟨b :: front, b', back, x, y, rfl, by rw [escape_cons, he, ← hd]; rfl, hafter⟩

/-! ### Lines -/

@[simp] theorem initial_ofBytes_nil : (ofBytes []).initial = "zeroinitializer" :=
  rfl

theorem initial_ofBytes_cons (b : UInt8) (bytes : List UInt8) :
    (ofBytes (b :: bytes)).initial = "c\"" ++ (escape (b :: bytes) ++ "\"") := by
  rw [← List.append_assoc]
  rfl

/-- What a line says about an array of bytes. -/
structure ArrayLine where
  /-- The symbol of the array. -/
  symbol : Text
  /-- The length that is declared. -/
  length : Nat
  /-- The bytes, if the line defines them. -/
  content : Option (List UInt8)
  /-- The alignment. -/
  align : Nat
  deriving DecidableEq

namespace ArrayLine

/-- Read a type `[n x i8]`. -/
def readType? (t : Text) : Option (Nat × Text) := do
  let (digits, t) ← Text.run? Char.isDigit (← t.stripPrefix? "[")
  return (← Text.toNat? digits, ← t.stripPrefix? " x i8]")

/-- Read an initialiser of the given length: zeros, or characters between quotes. -/
def readContent? (length : Nat) (t : Text) : Option (List UInt8 × Text) :=
  match t.stripPrefix? "zeroinitializer" with
  | some t => some (List.replicate length 0, t)
  | none => do
    let (characters, t) ← Token.quotedName? (← t.stripPrefix? "c\"")
    return (unescape characters, t)

/-- Read an alignment at the end of a line. -/
def readAlign? (t : Text) : Option Nat := do
  Text.toNat? (← t.stripPrefix? ", align ")

/-- Read a line that declares or defines an array of bytes. -/
def read? (line : Text) : Option ArrayLine := do
  let (symbol, t) ← Token.read? '@' line
  match t.stripPrefix? " = external global " with
  | some t =>
    let (length, t) ← readType? t
    return ⟨symbol, length, none, ← readAlign? t⟩
  | none =>
    let (length, t) ← readType? (← t.stripPrefix? " = global ")
    let (content, t) ← readContent? length (← t.stripPrefix? " ")
    return ⟨symbol, length, some content, ← readAlign? t⟩

@[simp] theorem readType?_append (bytes : List UInt8) (t : Text) :
    readType? ((ofBytes bytes).type ++ t) = some (bytes.length, t) := by
  have htype : (ofBytes bytes).type ++ t = "[" ++ (Text.decimal bytes.length ++ (" x i8]" ++ t)) := by
    rw [ofBytes, List.append_assoc, List.append_assoc]
  have hdigits : Text.run? Char.isDigit (Text.decimal bytes.length ++ (" x i8]" ++ t)) =
      some (Text.decimal bytes.length, " x i8]" ++ t) := by
    refine Text.run?_append Nat.toDigits_ne_nil (fun c hc => ?_) fun c hc => ?_
    · exact Nat.isDigit_of_mem_toDigits (by decide) (by decide) hc
    · obtain rfl : ' ' = c := Option.some.inj hc
      rfl
  rw [htype]
  simp only [readType?, Text.stripPrefix?_append, hdigits, Text.toNat?_decimal, Option.bind_eq_bind,
    Option.bind_some]
  rfl

theorem readContent?_append (bytes : List UInt8) (t : Text) :
    readContent? bytes.length ((ofBytes bytes).initial ++ t) = some (bytes, t) := by
  cases bytes with
  | nil =>
    rw [initial_ofBytes_nil, readContent?, Text.stripPrefix?_append]
    rfl
  | cons b bytes =>
    have hquote : '"' ∉ escape (b :: bytes) := fun hmem => (isPrintable_of_mem_escape hmem).2 rfl
    have htext : (ofBytes (b :: bytes)).initial ++ t = "c\"" ++ (escape (b :: bytes) ++ '"' :: t) := by
      rw [initial_ofBytes_cons, List.append_assoc, List.append_assoc]
      rfl
    have hzero : Text.stripPrefix? ("c\"" ++ (escape (b :: bytes) ++ '"' :: t)) "zeroinitializer" = none := rfl
    rw [readContent?, htext, hzero]
    simp only [Text.stripPrefix?_append, Token.quotedName?_append hquote, unescape_escape, Option.bind_eq_bind,
      Option.bind_some]
    rfl

@[simp] theorem readAlign?_append (n : Nat) : readAlign? (", align " ++ Text.decimal n) = some n := by
  rw [readAlign?, Text.stripPrefix?_append, Option.bind_eq_bind, Option.bind_some, Text.toNat?_decimal]

end ArrayLine

open ArrayLine

section

variable (bytes : List UInt8) {name : Text}

/-- The parts of the line that defines an array. -/
theorem definition_eq : (ofBytes bytes).definition name = Name.symbol name ++ (" = global " ++
    ((ofBytes bytes).type ++ (" " ++ ((ofBytes bytes).initial ++ (", align " ++ Text.decimal 8))))) := by
  simp only [definition, List.append_assoc]
  rfl

variable (hname : Name.Plain name)
include hname

/-- A line starts with the symbol of its array. -/
theorem read?_symbol_append (t : Text) :
    Token.read? '@' (Name.symbol name ++ ' ' :: t) = some (Name.symbol name, ' ' :: t) := by
  have hspells : Token.Spells (Name.symbol name) name := by
    by_cases hne : name = []
    · subst hne
      exact .quoted List.not_mem_nil
    · exact Token.spells_symbol hne (hname.notMem rfl)
  refine hspells.read?_append fun c hc => ?_
  obtain rfl : ' ' = c := Option.some.inj hc
  rfl

theorem read?_definition : ArrayLine.read? ((ofBytes bytes).definition name) =
    some ⟨Name.symbol name, bytes.length, some bytes, 8⟩ := by
  have hsymbol : ∀ t : Text, Token.read? '@' (Name.symbol name ++ (" = global " ++ t)) =
      some (Name.symbol name, " = global " ++ t) := fun t => read?_symbol_append hname _
  have hexternal : ∀ t : Text, Text.stripPrefix? (" = global " ++ t) " = external global " = none := fun _ => rfl
  rw [definition_eq, ArrayLine.read?]
  simp only [hsymbol, hexternal, Option.bind_eq_bind, Option.bind_some, Text.stripPrefix?_append,
    readType?_append, readContent?_append, readAlign?_append]
  rfl

theorem read?_declaration : ArrayLine.read? ((ofBytes bytes).declaration name) =
    some ⟨Name.symbol name, bytes.length, none, 8⟩ := by
  have hsymbol : ∀ t : Text, Token.read? '@' (Name.symbol name ++ (" = external global " ++ t)) =
      some (Name.symbol name, " = external global " ++ t) := fun t => read?_symbol_append hname _
  have hline : (ofBytes bytes).declaration name = Name.symbol name ++ (" = external global " ++
      ((ofBytes bytes).type ++ (", align " ++ Text.decimal 8))) := by
    simp only [declaration, List.append_assoc]
    rfl
  rw [hline, ArrayLine.read?]
  simp only [hsymbol, Option.bind_eq_bind, Option.bind_some, Text.stripPrefix?_append, readType?_append,
    readAlign?_append]
  rfl

theorem all_isPrintable_of_plain : name.all isPrintable := by
  have hascii : ∀ n < 128, Name.isPlain (Char.ofNat n) → isPrintable (Char.ofNat n) := by decide +kernel
  refine List.all_eq_true.mpr fun c hc => ?_
  have hplain := hname c hc
  have hlt := Name.toNat_lt_of_isPlain hplain
  rw [← Char.ofNat_toNat c] at hplain ⊢
  exact hascii c.toNat hlt hplain

private theorem all_isPrintable_symbol : (Name.symbol name).all isPrintable := by
  have hall := all_isPrintable_of_plain hname
  have hsigns : isPrintable '@' = true ∧ isPrintable '"' = true := by decide
  rw [Name.symbol, Name.write]
  split
  · rw [List.all_cons, hsigns.1, hall, Bool.and_self]
  · simp only [List.all_cons, List.all_append, List.all_nil, hsigns, hall, Bool.and_self]

omit hname in
private theorem all_isPrintable_type : (ofBytes bytes).type.all isPrintable := by
  have hdigits := all_isPrintable_of_plain (Name.plain_decimal bytes.length)
  have hliterals : ("[" : Text).all isPrintable ∧ (" x i8]" : Text).all isPrintable := by decide
  rw [ofBytes, List.all_append, List.all_append, hliterals.1, hdigits, hliterals.2]
  rfl

omit hname in
private theorem all_isPrintable_initial : (ofBytes bytes).initial.all isPrintable := by
  cases bytes with
  | nil =>
    rw [initial_ofBytes_nil]
    decide
  | cons b bytes =>
    have hescape : (escape (b :: bytes)).all isPrintable :=
      List.all_eq_true.mpr fun c hc => (isPrintable_of_mem_escape hc).1
    have hliterals : ("c\"" : Text).all isPrintable ∧ ("\"" : Text).all isPrintable := by decide
    rw [initial_ofBytes_cons, List.all_append, List.all_append, hliterals.1, hescape, hliterals.2]
    rfl

/-- All characters of the line are printable. -/
theorem all_isPrintable_definition : ((ofBytes bytes).definition name).all isPrintable := by
  have hliterals : (" = global " : Text).all isPrintable ∧ (" " : Text).all isPrintable ∧
      (", align " : Text).all isPrintable ∧ (Text.decimal 8).all isPrintable := by decide
  rw [definition_eq]
  simp only [List.all_append, all_isPrintable_symbol hname, hliterals, all_isPrintable_type,
    all_isPrintable_initial, Bool.and_self]

/-- So it is a single line. -/
theorem lines_definition : ((ofBytes bytes).definition name).lines = [(ofBytes bytes).definition name] := by
  have hbreak : ((ofBytes bytes).definition name).all (· != '\n') = true := by
    refine List.all_eq_true.mpr fun c hc => bne_iff_ne.mpr ?_
    rintro rfl
    exact absurd (List.all_eq_true.mp (all_isPrintable_definition bytes hname) _ hc) (by decide)
  have hlines : Text.lines (Text.unlines [(ofBytes bytes).definition name]) = [(ofBytes bytes).definition name] :=
    Text.lines_unlines (List.cons_ne_nil _ _) (by rw [List.all_cons, hbreak, List.all_nil, Bool.and_self])
  rwa [Text.unlines, List.intercalate_singleton] at hlines

end

end Constant

/-! ### Values -/

namespace Value

/-- The bytes of a value that becomes an array of bytes: a string, or a value with a fixed layout. -/
def content? : Value → Option (List UInt8)
  | .bytes _ content => some content
  | .string content => some content.encode
  | _ => none

variable {v : Value} {bytes : List UInt8}

private theorem constant?_of_content? (h : v.content? = some bytes) : v.constant? = some (.ofBytes bytes) := by
  cases v with
  | bytes _ content | string content =>
    obtain rfl := Option.some.inj h
    rfl
  | _ => cases h

/-- Such a value has a static form, and no warning comes with it. -/
theorem encode_of_content? (h : v.content? = some bytes) (name : Text) :
    v.encode name = ExceptT.mk ⟨.ok (.ofBytes bytes), []⟩ := by
  have hwarnings : v.encodeWarnings name = [] := by
    cases v with
    | bytes | string => rfl
    | _ => cases h
  rw [encode, constant?_of_content? h]
  dsimp only
  rw [hwarnings]

end Value

namespace Constant

/-- **Byte arrays survive their lines.**  The escapes of any bytes stand for these bytes.  All of their
characters are printable and none is a quote.  Behind each backslash there are two upper-case hexadecimal
digits, and then the escapes of the bytes that follow.

So a string or a value with a fixed layout, under a plain name, is defined by a single line, from which its
symbol, its length, its bytes and its alignment can be read, and the line that declares it says the same of
symbol, length and alignment.  Values with the same line have the same bytes. -/
theorem byteArrays_survive :
    (∀ bytes : List UInt8, unescape (escape bytes) = bytes ∧
      (∀ c ∈ escape bytes, isPrintable c ∧ c ≠ '"') ∧
      ∀ before after, escape bytes = before ++ '\\' :: after →
        ∃ front b back x y, bytes = front ++ b :: back ∧ before = escape front ∧
          after = x :: y :: escape back ∧ isUpperHex x ∧ isUpperHex y) ∧
    ∀ (v : Value) (bytes : List UInt8) (name : Text), v.content? = some bytes → Name.Plain name →
      ∃ c : Constant, v.encode name = ExceptT.mk ⟨.ok c, []⟩ ∧
        (c.definition name).lines = [c.definition name] ∧
        ArrayLine.read? (c.definition name) = some ⟨Name.symbol name, bytes.length, some bytes, 8⟩ ∧
        ArrayLine.read? (c.declaration name) = some ⟨Name.symbol name, bytes.length, none, 8⟩ ∧
        ∀ (v' : Value) (bytes' : List UInt8) (name' : Text) (c' : Constant), v'.content? = some bytes' →
          Name.Plain name' → v'.encode name' = ExceptT.mk ⟨.ok c', []⟩ →
          c'.definition name' = c.definition name → bytes' = bytes := by
  constructor
  · intro bytes
    exact ⟨unescape_escape bytes, fun c hc => isPrintable_of_mem_escape hc,
      fun before after => exists_of_escape_eq⟩
  · intro v bytes name hv hname
    refine ⟨ofBytes bytes, v.encode_of_content? hv name, lines_definition bytes hname,
      read?_definition bytes hname, read?_declaration bytes hname, ?_⟩
    intro v' bytes' name' c' hv' hname' hc' hsame
    have hc : c' = ofBytes bytes' :=
      Except.ok.inj (congrArg Logged.value (hc'.symm.trans (v'.encode_of_content? hv' name')))
    have hread := read?_definition bytes' hname'
    rw [← hc, hsame, read?_definition bytes hname] at hread
    have hcontent := congrArg (Option.bind · ArrayLine.content) hread
    exact (Option.some.inj hcontent).symm

/-- A text with a quote, a backslash, a line feed before a letter that could be a digit, and a character of
two bytes. -/
def mixedText : Text :=
  "a\"b\\\nFé"

/-- Its bytes survive. -/
theorem byteArrays_survive_mixedText :
    (Value.string mixedText).content? = some mixedText.encode ∧ Name.Plain "Main_s" ∧
    escape mixedText.encode = "a\\22b\\5C\\0AF\\C3\\A9" ∧
    unescape (escape mixedText.encode) = mixedText.encode ∧
    ∃ c : Constant, (Value.string mixedText).encode "Main_s" = ExceptT.mk ⟨.ok c, []⟩ ∧
      (c.definition "Main_s").lines = [c.definition "Main_s"] ∧
      ArrayLine.read? (c.definition "Main_s") = some ⟨"@Main_s", 8, some mixedText.encode, 8⟩ := by
  have hplain : Name.Plain "Main_s" := Text.forall_mem_of_all (by decide)
  have hescape : escape mixedText.encode = "a\\22b\\5C\\0AF\\C3\\A9" := by decide +kernel
  have hsymbol : Name.symbol "Main_s" = "@Main_s" ∧ mixedText.encode.length = 8 := by decide +kernel
  obtain ⟨hbytes, hvalues⟩ := byteArrays_survive
  obtain ⟨c, hc, hline, hread, -⟩ := hvalues (.string mixedText) mixedText.encode "Main_s" rfl hplain
  rw [hsymbol.1, hsymbol.2] at hread
  exact ⟨rfl, hplain, hescape, (hbytes _).1, c, hc, hline, hread⟩

end Constant

end Freestanding
