import Freestanding.Container.Lowering
import Freestanding.Proofs.Line.Values
import Freestanding.Proofs.Name.Plain

/-!
# Texts without idioms

Every idiom of containers that is looked for on a line has a text that it does not do without.  A line
that is put in for an idiom is made of fixed texts and of names and operands of the lines before; if
those hold no text of an idiom, the new line holds none either, as the fixed texts between them keep
such a text from coming about across their ends.

## Main definitions

* `Idiom.texts`, `Idiom.Silent` — the texts of the idioms, and a text that holds none.
* `Idiom.separates` — a text that keeps its two sides apart.
* `Idiom.quotedNames`, `Idiom.Regular` — the quoted names of a line, and the lines about which statements
  can be made: no name or length operand on them holds an idiom, and they are one instruction each.
* `Creation.Of` — what the operands of an allocation say.

## Main results

* `Idiom.Silent.append` — **silent texts around a separator are silent.**
* `Idiom.Silent.emptyLoad?_eq_none`, `Idiom.Silent.allocation?_eq_none`,
  `Idiom.Silent.isMarker_eq_false` — there is no idiom on a silent line.
* `Idiom.Silent.cast`, `Idiom.Silent.jump`, `Creation.Of.silent_lines` — the lines that are put in are
  silent.
-/

namespace Freestanding

namespace Idiom

/-- The texts that no idiom does without. -/
def texts : List Text :=
  ["load atomic ptr, ptr getelementptr inbounds (i8, ptr @", "@jl_alloc_genericmemory(",
    "@ijl_alloc_genericmemory(", "@julia.memoryref"]

/-- No text of an idiom occurs in a text. -/
def Silent (t : Text) : Prop :=
  ∀ p ∈ texts, Text.occurs p t = false

instance (t : Text) : Decidable (Silent t) :=
  inferInstanceAs (Decidable (∀ p ∈ texts, Text.occurs p t = false))

/-- A text of an idiom does not reach across a text: it neither starts within it, nor ends within it or
behind it if it starts before. -/
def separates (lit : Text) : Bool :=
  !lit.isEmpty && texts.all fun p =>
    (lit.tails.all fun s => s.isEmpty || !(p.isPrefixOf s || s.isPrefixOf p)) &&
      p.tails.all fun q => q.isEmpty || q == p || !(q.isPrefixOf lit || lit.isPrefixOf q)

private theorem occurs_iff_infix {p t : Text} : Text.occurs p t ↔ p <:+: t := by
  rw [Text.occurs_iff]
  constructor
  · rintro ⟨x, y, rfl, h⟩
    obtain ⟨z, rfl⟩ := Text.startsWith_iff.mp h
    exact ⟨x, z, by simp⟩
  · rintro ⟨x, z, rfl⟩
    exact ⟨x, p ++ z, by simp, Text.startsWith_iff.mpr ⟨z, rfl⟩⟩

theorem silent_iff {t : Text} : Silent t ↔ ∀ p ∈ texts, ¬ p <:+: t := by
  refine forall_congr' fun p => forall_congr' fun _ => ?_
  rw [← occurs_iff_infix, Bool.not_eq_true]

/-- What a separator keeps apart: no text of an idiom goes on from within it, and none goes on into it. -/
theorem separates_spec {lit : Text} (h : separates lit) : lit ≠ [] ∧
    (∀ p ∈ texts, ∀ s, s <:+ lit → s ≠ [] → ∀ y u, p ++ y ≠ s ++ u) ∧
      ∀ p ∈ texts, ∀ q, q <:+ p → q ≠ [] → q ≠ p → ∀ y u, q ++ y ≠ lit ++ u := by
  have hcomparable : ∀ {s t y u : Text}, s ++ y = t ++ u → s.isPrefixOf t ∨ t.isPrefixOf s := by
    intro s t y u he
    rw [List.isPrefixOf_iff_prefix, List.isPrefixOf_iff_prefix]
    exact List.prefix_or_prefix_of_prefix ⟨y, rfl⟩ ⟨u, he.symm⟩
  simp only [separates, Bool.and_eq_true, List.all_eq_true, List.mem_tails, Bool.or_eq_true,
    Bool.not_eq_true', Bool.or_eq_false_iff, List.isEmpty_iff, beq_iff_eq, List.isEmpty_eq_false_iff] at h
  refine ⟨h.1, fun p hp s hs hne y u he => ?_, fun p hp q hq hne hqp y u he => ?_⟩
  · obtain ⟨hps, hsp⟩ := ((h.2 p hp).1 s hs).resolve_left hne
    rcases hcomparable he with hprefix | hprefix
    · rw [hps] at hprefix
      cases hprefix
    · rw [hsp] at hprefix
      cases hprefix
  · obtain ⟨hql, hlq⟩ := ((h.2 p hp).2 q hq).resolve_left fun hor => hor.elim hne hqp
    rcases hcomparable he with hprefix | hprefix
    · rw [hql] at hprefix
      cases hprefix
    · rw [hlq] at hprefix
      cases hprefix

namespace Silent

/-- A part of a silent text is silent. -/
theorem of_infix {t u : Text} (h : Silent t) (hu : u <:+: t) : Silent u :=
  silent_iff.mpr fun p hp hpart => silent_iff.mp h p hp (hpart.trans hu)

/-- All idioms have the sigil of symbols in their texts. -/
theorem of_notMem {t : Text} (h : '@' ∉ t) : Silent t := by
  have hsigil : ∀ p ∈ texts, '@' ∈ p := by decide
  exact silent_iff.mpr fun p hp hpart => h (hpart.subset (hsigil p hp))

theorem nil : Silent [] :=
  of_notMem List.not_mem_nil

/-- White space in front of a silent text. -/
theorem blanks_append {indent t : Text} (h : Silent t) (hindent : ∀ c ∈ indent, Text.isBlank c) :
    Silent (indent ++ t) := by
  have hstart : ∀ p ∈ texts, ∀ c, p.head? = some c → Text.isBlank c = false := by
    have hall : texts.all fun p => p.head?.all (!Text.isBlank ·) := by decide
    intro p hp c hc
    have hhead := List.all_eq_true.mp hall p hp
    simpa [hc] using hhead
  rw [silent_iff]
  rintro p hp ⟨x, y, he⟩
  rw [List.append_assoc] at he
  rcases List.append_eq_append_iff.mp he with ⟨z, hz, hrest⟩ | ⟨z, -, hrest⟩
  · cases z with
    | nil => exact silent_iff.mp h p hp ⟨[], y, by simpa using hrest⟩
    | cons c z =>
      have hc : p.head? = some c := by
        have hp' : p ≠ [] := by
          rintro rfl
          exact absurd hp (by decide)
        obtain ⟨d, p, rfl⟩ := List.exists_cons_of_ne_nil hp'
        rw [List.cons_append, List.cons_append] at hrest
        rw [(List.cons.inj hrest).1]
        rfl
      have hblank := hindent c (by rw [hz]; simp)
      rw [hstart p hp c hc] at hblank
      cases hblank
  · exact silent_iff.mp h p hp ⟨z, y, by rw [hrest]; simp⟩

/-- **Silent texts around a separator are silent.** -/
theorem append {v u : Text} (hv : Silent v) (lit : Text) (hlit : separates lit) (hu : Silent u) :
    Silent (v ++ (lit ++ u)) := by
  obtain ⟨hne, hstart, hend⟩ := separates_spec hlit
  rw [silent_iff]
  rintro p hp ⟨x, y, he⟩
  rw [List.append_assoc] at he
  rcases List.append_eq_append_iff.mp he with ⟨w, hw, hrest⟩ | ⟨w, -, hrest⟩
  · -- the text starts before the separator
    rcases List.append_eq_append_iff.mp hrest with ⟨z, hz, -⟩ | ⟨q, hq, hafter⟩
    · exact silent_iff.mp hv p hp ⟨x, z, by rw [hw, hz, List.append_assoc]⟩
    · rcases eq_or_ne q [] with rfl | hq'
      · exact silent_iff.mp hv p hp ⟨x, [], by rw [hw, hq]; simp⟩
      · rcases eq_or_ne q p with rfl | hqp
        · exact hstart q hp lit List.suffix_rfl hne y u hafter.symm
        · exact hend p hp q ⟨w, hq.symm⟩ hq' hqp y u hafter.symm
  · -- it starts within the separator or behind it
    rcases List.append_eq_append_iff.mp hrest with ⟨z, -, hz⟩ | ⟨s, hs, hafter⟩
    · exact silent_iff.mp hu p hp ⟨z, y, by rw [hz, List.append_assoc]⟩
    · rcases eq_or_ne s [] with rfl | hs'
      · exact silent_iff.mp hu p hp ⟨[], y, by simpa using hafter⟩
      · exact hstart p hp s ⟨w, hs.symm⟩ hs' y u hafter

end Silent

/-! ### No idioms on silent lines -/

/-- A call of the allocator with its operands, which run to the first closing parenthesis. -/
def Allocates (t operands : Text) : Prop :=
  ∃ before callee after : Text, t = before ++ (callee ++ (operands ++ ')' :: after)) ∧
    (callee = "@jl_alloc_genericmemory(" ∨ callee = "@ijl_alloc_genericmemory(") ∧ ')' ∉ operands

theorem allocates_of_allocationAt? {t operands : Text} (h : allocationAt? t = some operands) :
    Allocates t operands := by
  unfold allocationAt? at h
  simp only [Option.bind_eq_bind, Option.bind_eq_some_iff] at h
  obtain ⟨v, hv, before, -, hrest⟩ := h
  split at hrest
  · obtain ⟨w, hw, hrest⟩ := Option.bind_eq_some_iff.mp hrest
    obtain ⟨z, hz, hoperands⟩ := Option.bind_eq_some_iff.mp hrest
    obtain ⟨after, rfl, hnot⟩ := Text.takeWhile_eq_some_iff.mp hoperands
    have hcallee := Text.stripPrefix?_eq_some_iff.mp hz
    have hline : t = ("call " ++ v.takeWhile (· != '@')) ++ (("@" : Text) ++ w) := by
      rw [Text.stripPrefix?_eq_some_iff.mp hv, ← Text.stripPrefix?_eq_some_iff.mp hw, List.append_assoc,
        List.takeWhile_append_dropWhile]
    -- the name of the callee may have one more letter in front
    cases hi : Text.stripPrefix? w "i" with
    | some w' =>
      rw [hi, Option.getD_some] at hcallee
      rw [Text.stripPrefix?_eq_some_iff.mp hi, hcallee] at hline
      exact ⟨_, "@ijl_alloc_genericmemory(", after, hline, .inr rfl, hnot⟩
    | none =>
      rw [hi, Option.getD_none] at hcallee
      rw [hcallee] at hline
      exact ⟨_, "@jl_alloc_genericmemory(", after, hline, .inl rfl, hnot⟩
  · cases hrest

theorem allocates_of_allocation? {line operands : Text} (h : allocation? line = some operands) :
    Allocates line operands := by
  obtain ⟨x, y, rfl, hy, -⟩ := Text.first?_eq_some_iff.mp h
  obtain ⟨before, callee, after, rfl, hcallee⟩ := allocates_of_allocationAt? hy
  exact ⟨x ++ before, callee, after, by rw [List.append_assoc], hcallee⟩

/-- A load of an empty instance begins with its text. -/
theorem begins_of_emptyLoadAt? {t symbol : Text} (h : emptyLoadAt? t = some symbol) :
    ("load atomic ptr, ptr getelementptr inbounds (i8, ptr @" : Text) <+: t := by
  unfold emptyLoadAt? at h
  simp only [Option.bind_eq_bind, Option.bind_eq_some_iff] at h
  obtain ⟨v, hv, ⟨token, w⟩, htoken, -⟩ := h
  obtain rfl := Text.stripPrefix?_eq_some_iff.mp hv
  obtain ⟨w, rfl⟩ := Token.exists_cons_of_read? (Option.filter_eq_some_iff.mp htoken).1
  have hliteral : ("load atomic ptr, ptr getelementptr inbounds (i8, ptr @" : Text) =
      "load atomic ptr, ptr getelementptr inbounds (i8, ptr " ++ ['@'] := by decide
  rw [hliteral]
  exact ⟨w, by simp⟩

namespace Silent

variable {t : Text}

/-- Nothing is found on a silent text that starts with the text of an idiom. -/
theorem first?_eq_none {α : Type} (h : Silent t) {f : Text → Option α}
    (hf : ∀ u, (f u).isSome → ∃ p ∈ texts, p <:+: u) : t.first? f = none := by
  rw [← Option.not_isSome_iff_eq_none, Text.isSome_first?_iff]
  rintro ⟨x, y, rfl, hy⟩
  obtain ⟨p, hp, hpart⟩ := hf y hy
  exact silent_iff.mp h p hp (hpart.trans (List.suffix_append x y).isInfix)

theorem emptyLoad?_eq_none (h : Silent t) : emptyLoad? t = none := by
  refine h.first?_eq_none fun u hu => ?_
  obtain ⟨symbol, hsymbol⟩ := Option.isSome_iff_exists.mp hu
  exact ⟨_, .head _, (begins_of_emptyLoadAt? hsymbol).isInfix⟩

theorem allocation?_eq_none (h : Silent t) : allocation? t = none := by
  refine h.first?_eq_none fun u hu => ?_
  obtain ⟨operands, hoperands⟩ := Option.isSome_iff_exists.mp hu
  obtain ⟨before, callee, after, rfl, hcallee, -⟩ := allocates_of_allocationAt? hoperands
  refine ⟨callee, ?_, before, operands ++ ')' :: after, by simp⟩
  rcases hcallee with rfl | rfl
  · decide
  · decide

theorem isMarker_eq_false (h : Silent t) : isMarker t = false := by
  rw [isMarker, h "@julia.memoryref" (by decide), Bool.and_false]

end Silent

/-! ### Names of a line -/

/-- Every second one of the pieces between quotes. -/
def odds : List Text → List Text
  | _ :: name :: pieces => name :: odds pieces
  | _ => []

/-- The quoted names of a line, where its quotes are taken in pairs. -/
def quotedNames (line : Text) : List Text :=
  odds (line.splitOn '"')

/-- The operand of an allocation on a line that gives the length. -/
def lengthOperand? (line : Text) : Option Text :=
  (allocation? line).bind fun operands => (operands.splitOn ',')[1]?

/-- The instructions that matter for containers. -/
inductive Kind
  /-- A load of an empty instance. -/
  | load
  /-- A comparison with null. -/
  | check
  /-- A conditional branch. -/
  | branch
  /-- An allocation of a container. -/
  | allocation
  /-- A marker call. -/
  | marker
  deriving DecidableEq, Repr

/-- All kinds of instructions. -/
def Kind.all : List Kind :=
  [.load, .check, .branch, .allocation, .marker]

theorem Kind.mem_all (k : Kind) : k ∈ Kind.all := by
  cases k <;> decide

/-- A line can be read as an instruction of a kind. -/
def Kind.reads (table : AddressTable) (line : Text) : Kind → Bool
  | .load => (Dereference.load? table line).isSome
  | .check => (nullCheck? line).isSome
  | .branch => (branch? line).isSome
  | .allocation => (allocation? line).isSome
  | .marker => isMarker line

/-- A line is at most one of the instructions that matter for containers, and neither its quoted names
nor the length of a container hold the text of an idiom. -/
structure Regular (table : AddressTable) (line : Text) : Prop where
  /-- The line is one instruction. -/
  single : ∀ k k' : Kind, k.reads table line → k'.reads table line → k = k'
  /-- Quoted names hold no idioms. -/
  quoted : ∀ name ∈ quotedNames line, Silent name
  /-- Lengths hold no idioms. -/
  length : ∀ operand ∈ lengthOperand? line, Silent operand

instance (table : AddressTable) (line : Text) : Decidable (Regular table line) :=
  decidable_of_iff
    ((∀ k ∈ Kind.all, ∀ k' ∈ Kind.all, k.reads table line → k'.reads table line → k = k') ∧
      (∀ name ∈ quotedNames line, Silent name) ∧ ∀ operand ∈ lengthOperand? line, Silent operand)
    ⟨fun h => ⟨fun k k' => h.1 k k.mem_all k' k'.mem_all, h.2.1, h.2.2⟩,
      fun h => ⟨fun k _ k' _ => h.single k k', h.quoted, h.length⟩⟩

theorem quotedNames_append {before name after : Text} (hbefore : '"' ∉ before) (hname : '"' ∉ name) :
    quotedNames (before ++ '"' :: (name ++ '"' :: after)) = name :: quotedNames after := by
  rw [quotedNames, List.splitOn_append_cons_self_of_not_mem hbefore,
    List.splitOn_append_cons_self_of_not_mem hname]
  rfl

private theorem at_notMem_of_isNameChar {name : Text} (h : name.all Token.isNameChar) :
    '@' ∉ name ∧ '"' ∉ name := by
  constructor
  · exact fun hmem => absurd (List.all_eq_true.mp h _ hmem) (by decide)
  · exact fun hmem => absurd (List.all_eq_true.mp h _ hmem) (by decide)

/-- A name in quotes is as silent as the name. -/
theorem Silent.quoted {name : Text} (h : Silent name) : Silent ('%' :: '"' :: (name ++ ['"'])) :=
  Silent.nil.append "%\"" (by decide) (h.append "\"" (by decide) Silent.nil)

/-- The next value of a line is silent if the quoted names are. -/
theorem silent_of_read? {before t token rest : Text} (hbefore : '"' ∉ before)
    (hnames : ∀ name ∈ quotedNames (before ++ t), Silent name)
    (h : Token.read? '%' t = some (token, rest)) :
    Silent token ∧ ∃ before', '"' ∉ before' ∧ ∀ name ∈ quotedNames (before' ++ rest), Silent name := by
  obtain ⟨rfl, u, name, rfl, hspells⟩ := Token.exists_spells_of_read? h
  cases hspells with
  | bare hne hname =>
    obtain ⟨hat, hquote⟩ := at_notMem_of_isNameChar hname
    refine ⟨.of_notMem (by simp [hat]), before ++ '%' :: u, by simp [hbefore, hquote], ?_⟩
    rw [List.append_assoc]
    exact hnames
  | quoted hname =>
    have htext : before ++ ('%' :: '"' :: (name ++ ['"']) ++ rest) =
        (before ++ ['%']) ++ '"' :: (name ++ '"' :: rest) := by simp
    rw [htext, quotedNames_append (by simp [hbefore]) hname, List.forall_mem_cons] at hnames
    exact ⟨hnames.1.quoted, [], List.not_mem_nil, hnames.2⟩

theorem quote_notMem_blanks (line : Text) : '"' ∉ line.takeWhile Text.isBlank := by
  intro hmem
  exact absurd (List.mem_takeWhile_imp hmem) (by decide)

namespace Regular

variable {table : AddressTable} {line : Text}

/-- The value that a regular line assigns is silent. -/
theorem silent_value (h : Regular table line) {value : Text} (hvalue : Line.assigned? line = some value) :
    Silent value := by
  obtain ⟨blanks, rest, hline, hblanks⟩ := Line.exists_of_assigned? hvalue
  have hrest : ∀ c, (blanks ++ (" = " ++ rest)).head? = some c → Token.isNameChar c = false := by
    intro c hc
    have hblank : Text.isBlank c := by
      cases blanks with
      | nil => rw [← Option.some.inj hc]; decide
      | cons d blanks => rw [← Option.some.inj hc]; exact hblanks d List.mem_cons_self
    exact Token.isNameChar_of_isBlank hblank
  have hread := (Line.isValue_of_assigned? hvalue).read?_append hrest
  refine (silent_of_read? (quote_notMem_blanks line) ?_ hread).1
  rw [← hline]
  exact h.quoted

/-- The labels to which a regular line branches are silent. -/
theorem silent_labels (h : Regular table line) {b : Branch} (hb : branch? line = some b) :
    Silent b.yes ∧ Silent b.no := by
  have hquoted := h.quoted
  have hsplit : line.takeWhile Text.isBlank ++ line.trimStart = line := List.takeWhile_append_dropWhile
  unfold branch? at hb
  simp only [Option.bind_eq_bind, Option.bind_eq_some_iff] at hb
  obtain ⟨t, ht, ⟨flag, u⟩, hflag, v, hv, ⟨yes, w⟩, hyes, x, hx, ⟨no, y⟩, hno, he⟩ := hb
  obtain rfl := Option.some.inj he
  dsimp only at hv hx ⊢
  have hread : ∀ {t token rest : Text}, Token.named? '%' t = some (token, rest) →
      Token.read? '%' t = some (token, rest) := fun hnamed => (Option.filter_eq_some_iff.mp hnamed).1
  have hliteral : ∀ {before lit : Text}, '"' ∉ before → '"' ∉ lit → '"' ∉ before ++ lit :=
    fun hbefore hlit hmem => (List.mem_append.mp hmem).elim hbefore hlit
  rw [← hsplit, Text.stripPrefix?_eq_some_iff.mp ht, ← List.append_assoc] at hquoted
  -- the three values of the line, from left to right
  obtain ⟨-, before, hbefore, hnames⟩ := silent_of_read?
    (hliteral (quote_notMem_blanks line) (by decide)) hquoted (hread hflag)
  rw [Text.stripPrefix?_eq_some_iff.mp hv, ← List.append_assoc] at hnames
  obtain ⟨hsilent, before, hbefore, hnames⟩ := silent_of_read?
    (hliteral hbefore (by decide)) hnames (hread hyes)
  rw [Text.stripPrefix?_eq_some_iff.mp hx, ← List.append_assoc] at hnames
  exact ⟨hsilent, (silent_of_read? (hliteral hbefore (by decide)) hnames (hread hno)).1⟩

end Regular

end Idiom

/-! ### Lines that are put in -/

open Idiom

/-- The empty instance is called by a name that starts no idiom. -/
theorem Container.exists_singletonSymbol_eq (stem : Text) :
    ∃ tail, Container.singletonSymbol stem = '@' :: '_' :: tail ∧ '@' ∉ tail := by
  have hplain : Name.Plain ("j_empty_memory_" ++ Name.sanitize stem) :=
    Name.Plain.append (Text.forall_mem_of_all (by decide)) (Name.plain_sanitize stem)
  have hid : Name.isIdentifier ('_' :: ("j_empty_memory_" ++ Name.sanitize stem)) := by
    have hall : ("j_empty_memory_" ++ Name.sanitize stem).all Token.isNameChar := by
      refine List.all_eq_true.mpr fun c hc => ?_
      have hc := hplain c hc
      simp only [Name.isPlain, Bool.or_eq_true, beq_iff_eq] at hc
      simp only [Token.isNameChar, Bool.or_eq_true, beq_iff_eq]
      tauto
    rw [Name.isIdentifier, hall]
    decide
  refine ⟨"j_empty_memory_" ++ Name.sanitize stem, ?_, hplain.notMem (by decide)⟩
  have hname : ("_j_empty_memory_" : Text) ++ Name.sanitize stem =
      '_' :: ("j_empty_memory_" ++ Name.sanitize stem) := rfl
  rw [Container.singletonSymbol, hname, Name.symbol, Name.write, if_pos hid]

/-- **The line that takes the place of a load is silent.** -/
theorem Idiom.Silent.cast {indent value tail : Text} (hindent : ∀ c ∈ indent, Text.isBlank c)
    (hvalue : Silent value) (htail : '@' ∉ tail) :
    Silent (indent ++ value ++ " = bitcast ptr " ++ '@' :: '_' :: tail ++ " to ptr") := by
  have htext : indent ++ value ++ " = bitcast ptr " ++ '@' :: '_' :: tail ++ " to ptr" =
      indent ++ (value ++ (" = bitcast ptr @_" ++ (tail ++ " to ptr"))) := by
    simp only [List.append_assoc]
    rfl
  rw [htext]
  have hrest : '@' ∉ tail ++ " to ptr" := by
    rw [List.mem_append, not_or]
    exact ⟨htail, by decide⟩
  exact (hvalue.append _ (by decide +kernel) (.of_notMem hrest)).blanks_append hindent

theorem Idiom.separates_jump : separates "br label " := by
  unfold separates texts
  repeat rw [Text.toList_literal]
  decide +kernel

/-- **The line that takes the place of a branch is silent.** -/
theorem Idiom.Silent.jump {indent label : Text} (hindent : ∀ c ∈ indent, Text.isBlank c)
    (hlabel : Silent label) : Silent (indent ++ "br label " ++ label) := by
  rw [List.append_assoc]
  exact (Silent.nil.append "br label " separates_jump hlabel).blanks_append hindent

namespace Creation

/-- The creation is what the operands of an allocation on a line say. -/
structure Of (layouts : Std.ExtTreeMap Text Layout) (line operands : Text) (c : Creation) : Prop where
  /-- The new instructions are indented like the line. -/
  indent : c.indent = line.takeWhile Text.isBlank
  /-- The container is assigned to the value of the line. -/
  result : Line.assigned? line = some c.result
  /-- There are two operands: the symbol of a container type with a layout, and the length. -/
  operands : ∃ type length symbol count : Text, operands.splitOn ',' = [type, length] ∧
    (Text.words type.trim).getLast? = some symbol ∧ symbol.head? = some '@' ∧
      layouts[symbol]? = some c.layout ∧ length.trim = "i64 " ++ count ∧ c.count = count.trim

/-- **What is read off a call.** -/
theorem read_eq_ok_iff {layouts : Std.ExtTreeMap Text Layout} {function line operands : Text}
    {c : Creation} : read layouts function line operands = .ok c ↔ c.Of layouts line operands := by
  unfold read typeSymbol?
  constructor
  · intro h
    split at h
    · cases h
    · next result hresult =>
      split at h
      · next type length hsplit =>
        split at h
        · cases h
        · next symbol hsymbol =>
          split at h
          · cases h
          · next count hcount =>
            split at h
            · cases h
            · next layout hlayout =>
              obtain rfl := Except.ok.inj h
              obtain ⟨type, rest, hpieces, rfl, hrest⟩ := List.map_eq_cons_iff.mp hsplit
              obtain ⟨length, rest, rfl, rfl, hnil⟩ := List.map_eq_cons_iff.mp hrest
              obtain rfl := List.map_eq_nil_iff.mp hnil
              obtain ⟨hlast, hhead⟩ := Option.filter_eq_some_iff.mp hsymbol
              exact ⟨rfl, hresult, type, length, symbol, count, hpieces, hlast, by simpa using hhead,
                hlayout, Text.stripPrefix?_eq_some_iff.mp hcount, rfl⟩
      · cases h
  · rintro ⟨hindent, hresult, type, length, symbol, count, hpieces, hlast, hhead, hlayout, hlength, hcount⟩
    have hsymbol : (Text.words type.trim).getLast?.filter (·.head? == some '@') = some symbol := by
      rw [hlast, Option.filter_some, if_pos (by simp [hhead])]
    have hstrip : Text.stripPrefix? length.trim "i64 " = some count :=
      Text.stripPrefix?_eq_some_iff.mpr hlength
    simp only [hresult, hpieces, List.map_cons, List.map_nil, hsymbol, hstrip, hlayout, ← hindent, ← hcount]

variable {table : AddressTable} {layouts : Std.ExtTreeMap Text Layout} {line operands : Text} {c : Creation}

/-- The names of helper values are as silent as that of the container. -/
theorem silent_derived {token : Text} (h : Silent token) (suffix : Text)
    (hsuffix : separates ('.' :: suffix)) :
    Silent (Name.derived token suffix) ∧ (Name.derived token suffix).head? = some '%' := by
  have hname : Silent (Name.bare token ++ '.' :: suffix) := by
    have hdot := (h.of_infix (Name.bare_isInfix token)).append ('.' :: suffix) hsuffix Silent.nil
    rwa [List.append_nil] at hdot
  unfold Name.derived Name.value Name.write
  split
  · exact ⟨Silent.nil.append "%" (by decide) hname, rfl⟩
  · exact ⟨hname.quoted, rfl⟩

/-- The length is a part of the second operand. -/
theorem Of.exists_length (h : c.Of layouts line operands) :
    ∃ type length : Text, operands.splitOn ',' = [type, length] ∧ c.count <:+: length := by
  obtain ⟨type, length, symbol, count, hpieces, -, -, -, hlength, hcount⟩ := h.operands
  refine ⟨type, length, hpieces, ?_⟩
  rw [hcount]
  refine (Text.trim_isInfix count).trans (List.IsInfix.trans ?_ (Text.trim_isInfix length))
  rw [hlength]
  exact (List.suffix_append _ count).isInfix

private theorem Of.silent_count (h : c.Of layouts line operands) (hline : Regular table line)
    (hoperands : allocation? line = some operands) : Silent c.count := by
  obtain ⟨type, length, hpieces, hpart⟩ := h.exists_length
  refine Silent.of_infix (hline.length length ?_) hpart
  rw [lengthOperand?, hoperands, Option.bind_some, hpieces]
  rfl

/-- A number behind a silent text. -/
theorem silent_comma_decimal {v : Text} (h : Silent v) (n : Nat) : Silent (v ++ (", " ++ Text.decimal n)) := by
  have hdigits : ∀ c : Char, c.isDigit → c ∈ ("0123456789" : Text) := by
    intro c hc
    obtain ⟨hlow, hhigh⟩ : 48 ≤ c.toNat ∧ c.toNat ≤ 57 := by
      simpa [Char.isDigit, UInt32.le_iff_toNat_le] using hc
    have hall : ∀ k < 58, 48 ≤ k → Char.ofNat k ∈ ("0123456789" : Text) := by decide
    rw [← Char.ofNat_toNat c]
    exact hall c.toNat (by omega) hlow
  have hseparates : ∀ c ∈ ("0123456789" : Text), separates [',', ' ', c] :=
    Text.forall_mem_of_all (by decide +kernel)
  obtain ⟨c, digits, hdecimal⟩ := List.exists_cons_of_ne_nil (Nat.toDigits_ne_nil (n := n) (b := 10))
  have hdigit : ∀ d ∈ c :: digits, d.isDigit := fun d hd =>
    Nat.isDigit_of_mem_toDigits (by decide) (by decide) (hdecimal ▸ hd)
  have hrest : '@' ∉ digits := fun hmem =>
    absurd (hdigit '@' (List.mem_cons_of_mem _ hmem)) (by decide)
  rw [Text.decimal, hdecimal]
  exact h.append [',', ' ', c] (hseparates c (hdigits c (hdigit c List.mem_cons_self))) (.of_notMem hrest)

/-- The fixed texts of the instructions that create a container, but for the names of helper values. -/
theorem separates_instructions : separates " = mul i64 " ∧ separates " = call ptr @malloc(i64 16)" ∧
    separates " = call ptr @calloc(i64 " ∧ separates ", i64 8)" ∧ separates " = call ptr @malloc(i64 " ∧
    separates ")" ∧ separates "store i64 " ∧ separates "store ptr " ∧ separates ", ptr %" ∧
    separates ", align 8" ∧ separates " = getelementptr inbounds i8, ptr " ∧ separates ", i64 8" := by
  unfold separates texts
  repeat rw [Text.toList_literal]
  decide +kernel

/-- The address of a store behind a silent operand. -/
theorem silent_store {v address : Text} (hv : Silent v) (h : Silent address)
    (hsigil : address.head? = some '%') : Silent (v ++ (", ptr " ++ (address ++ ", align 8"))) := by
  obtain ⟨-, -, -, -, -, -, -, -, hptr, halign, -⟩ := separates_instructions
  cases address with
  | nil => cases hsigil
  | cons c u =>
    obtain rfl := Option.some.inj hsigil
    -- a type alone would not separate: loads have pointers among their operands, too
    exact hv.append ", ptr %" hptr ((h.of_infix (List.suffix_cons '%' u).isInfix).append _ halign .nil)

/-- **The instructions that create a container are silent.** -/
theorem Of.silent_lines (h : c.Of layouts line operands) (hline : Regular table line)
    (hoperands : allocation? line = some operands) : ∀ t ∈ c.lines, Silent t := by
  obtain ⟨hmul, hheader, hcalloc, height, hmalloc, hclose, hstore, hstorePtr, -, -, helement, hoffset⟩ :=
    separates_instructions
  have hindent : ∀ x ∈ c.indent, Text.isBlank x := by
    rw [h.indent]
    exact fun x hx => List.mem_takeWhile_imp hx
  have hcount := h.silent_count hline hoperands
  have hresult : Silent c.result := hline.silent_value h.result
  have hsigil : c.result.head? = some '%' := by
    obtain ⟨u, hu⟩ := Line.head?_of_isValue (Line.isValue_of_assigned? h.result)
    rw [hu]
    rfl
  obtain ⟨hbytesDot, hdataDot, hslotDot⟩ :
      separates ".bytes" ∧ separates ".data" ∧ separates ".data_slot" := by
    unfold separates texts
    repeat rw [Text.toList_literal]
    decide +kernel
  have hbytes := (silent_derived hresult "bytes" hbytesDot).1
  have hdata := (silent_derived hresult "data" hdataDot).1
  obtain ⟨hslot, hslotSigil⟩ := silent_derived hresult "data_slot" hslotDot
  intro t ht
  unfold lines at ht
  obtain ⟨instruction, hinstruction, rfl⟩ := List.mem_map.mp ht
  refine Silent.blanks_append ?_ hindent
  simp only [List.mem_cons, List.not_mem_nil, or_false] at hinstruction
  rcases hinstruction with rfl | rfl | rfl | rfl | rfl | rfl
  · simp only [List.append_assoc]
    exact hbytes.append _ hmul (silent_comma_decimal hcount _)
  · have hcall := hresult.append _ hheader Silent.nil
    rwa [List.append_nil] at hcall
  · split
    · simp only [List.append_assoc]
      exact hdata.append _ hcalloc (hcount.append _ height Silent.nil)
    · simp only [List.append_assoc]
      exact hdata.append _ hmalloc (hbytes.append _ hclose Silent.nil)
  · simp only [List.append_assoc]
    exact Silent.nil.append _ hstore (silent_store hcount hresult hsigil)
  · simp only [List.append_assoc]
    exact hslot.append _ helement (hresult.append _ hoffset Silent.nil)
  · simp only [List.append_assoc]
    exact Silent.nil.append _ hstorePtr (silent_store hdata hslot hslotSigil)

end Creation

end Freestanding
