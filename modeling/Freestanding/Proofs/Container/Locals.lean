import Freestanding.Proofs.Container.Runs
import Freestanding.Proofs.Line.Code

/-!
# Local values

A body should define each of its values once, and use only values that are defined.  A run over a body
changes which values it has: the flag of a comparison with null goes with the comparison, values that are
assigned on marker lines go, and for each container that is created three helper values come, whose names
are the name of the container with something behind it.  Nobody looks whether a flag is used elsewhere,
or whether a helper value has the name of another value.

## Main definitions

* `Creation.helpers` — the helper values of a container.
* `Container.BodyRun.removed`, `Container.BodyRun.helpers` — the values that go and those that come.

## Main results

* `Container.BlockRun.definitions_perm` — the values that a block defines, before and after.
* `Container.lower_values` — **when values stay defined, and when they are still defined once.**
* `Container.flag_and_helper_clash` — a body with a use of a flag, and a helper value that is there already.
-/

namespace Freestanding

open Idiom

/-! ### Values of the lines that are exchanged -/

namespace Creation

variable {layouts : Std.ExtTreeMap Text Layout} {line operands : Text} {c : Creation}

/-- The values that hold the size, the elements, and the place of their address. -/
def helpers (c : Creation) : List Text :=
  [Name.derived c.result "bytes", Name.derived c.result "data", Name.derived c.result "data_slot"]

theorem isValue_derived {token : Text} (h : Token.IsValue token) (suffix : Text) (hsuffix : '"' ∉ suffix) :
    Token.IsValue (Name.derived token suffix) ∧
      Name.canonical (Name.derived token suffix) = Name.derived token suffix := by
  have hname : '"' ∉ Name.bare token ++ '.' :: suffix := by
    refine List.not_mem_append (Name.quote_notMem_bare h) ?_
    rw [List.mem_cons, not_or]
    exact ⟨by decide, hsuffix⟩
  exact ⟨Token.isValue_value hname, Name.canonical_value hname⟩

/-- An instruction of a creation that defines a value. -/
theorem Of.of_define (h : c.Of layouts line operands) {token : Text} (htoken : Token.IsValue token)
    (lit more : Text) (hlit : Text.stripPrefix? lit " =" = some more) (rest : Text) :
    Line.definitions (c.indent ++ (token ++ (lit ++ rest))) = [Name.canonical token] ∧
      Line.operands (c.indent ++ (token ++ (lit ++ rest))) =
        Line.readsFrom Line.valueAt? .code (more ++ rest) := by
  refine Line.of_define (trimStart_blanks_append h.blank_of_mem_indent fun x hx => ?_) hlit htoken
  obtain ⟨u, rfl⟩ := Line.head?_of_isValue htoken
  rw [← Option.some.inj hx]
  decide

/-- An instruction of a creation that stores a value. -/
theorem Of.of_store (h : c.Of layouts line operands) {lit : Text} (hlit : lit.head? = some 's') (rest : Text) :
    Line.definitions (c.indent ++ (lit ++ rest)) = [] ∧
      Line.operands (c.indent ++ (lit ++ rest)) = Line.readsFrom Line.valueAt? .code (lit ++ rest) := by
  obtain ⟨lit, rfl⟩ := List.head?_eq_some_iff.mp hlit
  have htrim : Text.trimStart (c.indent ++ ('s' :: lit ++ rest)) = 's' :: lit ++ rest :=
    trimStart_blanks_append h.blank_of_mem_indent fun x hx => by rw [← Option.some.inj hx]; decide
  obtain ⟨hdefinitions, hoperands⟩ := Line.of_not_define fun u hu => by
    rw [htrim] at hu
    cases hu
  exact ⟨hdefinitions, hoperands.trans (by rw [htrim])⟩

/-- The instructions that create a container define the container and the helper values. -/
theorem Of.definitions_lines (h : c.Of layouts line operands) :
    (c.lines.flatMap Line.definitions).Perm (Line.definitions line ++ c.helpers) := by
  have hresult := Line.isValue_of_assigned? h.result
  obtain ⟨hbytes, hbytes'⟩ := isValue_derived hresult "bytes" (by decide)
  obtain ⟨hdata, hdata'⟩ := isValue_derived hresult "data" (by decide)
  obtain ⟨hslot, hslot'⟩ := isValue_derived hresult "data_slot" (by decide)
  have hsize : Line.definitions (c.indent ++ (Name.derived c.result "bytes" ++ " = mul i64 " ++ c.count ++ ", " ++
      Text.decimal c.slotSize)) = [Name.derived c.result "bytes"] := by
    simp only [List.append_assoc]
    rw [(h.of_define hbytes _ _ rfl _).1, hbytes']
  have hheader : Line.definitions (c.indent ++ (c.result ++ " = call ptr @malloc(i64 16)")) =
      [Name.canonical c.result] := by
    rw [← List.append_nil (String.toList _), (h.of_define hresult _ _ rfl _).1]
  have helements : Line.definitions (c.indent ++
      if c.layout.boxed then Name.derived c.result "data" ++ " = call ptr @calloc(i64 " ++ c.count ++ ", i64 8)"
      else Name.derived c.result "data" ++ " = call ptr @malloc(i64 " ++ Name.derived c.result "bytes" ++ ")") =
      [Name.derived c.result "data"] := by
    split
    all_goals
      simp only [List.append_assoc]
      rw [(h.of_define hdata _ _ rfl _).1, hdata']
  have hplace : Line.definitions (c.indent ++ (Name.derived c.result "data_slot" ++
      " = getelementptr inbounds i8, ptr " ++ c.result ++ ", i64 8")) = [Name.derived c.result "data_slot"] := by
    simp only [List.append_assoc]
    rw [(h.of_define hslot _ _ rfl _).1, hslot']
  have hlength : Line.definitions (c.indent ++ ("store i64 " ++ c.count ++ ", ptr " ++ c.result ++ ", align 8")) =
      [] := by
    simp only [List.append_assoc]
    exact (h.of_store rfl _).1
  have haddress : Line.definitions (c.indent ++ ("store ptr " ++ Name.derived c.result "data" ++ ", ptr " ++
      Name.derived c.result "data_slot" ++ ", align 8")) = [] := by
    simp only [List.append_assoc]
    exact (h.of_store rfl _).1
  rw [lines_eq, instructions]
  simp only [List.map_cons, List.map_nil, List.flatMap_cons, List.flatMap_nil]
  rw [hsize, hheader, helements, hlength, hplace, haddress, Line.definitions_of_assigned? h.result]
  exact .swap _ _ _

/-- The length is read whole: it is a value, or it mentions none. -/
def Whole (c : Creation) : Prop :=
  Token.IsValue c.count ∨ Line.noValues c.count

/-- What is read in a length that is read whole. -/
theorem Whole.exists_reads (h : c.Whole) : ∃ values : List Text,
    (∀ x ∈ values, Token.IsValue c.count ∧ x = Name.canonical c.count) ∧
      ∀ rest : Text, Line.endsValue rest → Line.readsFrom Line.valueAt? .code (c.count ++ rest) =
        values ++ Line.readsFrom Line.valueAt? .code rest := by
  rcases h with hvalue | hnumber
  · refine ⟨[Name.canonical c.count], fun x hx => ⟨hvalue, List.mem_singleton.mp hx⟩, fun rest hrest => ?_⟩
    exact Line.readsFrom_isValue_append hvalue hrest
  · exact ⟨[], fun x hx => absurd hx List.not_mem_nil, fun rest _ => Line.readsFrom_noValues_append hnumber rest⟩

/-- **What the instructions use that create a container**, if the length is read whole: the container, the
helper values, and the length. -/
theorem Of.mem_operands_lines (h : c.Of layouts line operands) (hwhole : c.Whole) {x : Text}
    (hx : x ∈ c.lines.flatMap Line.operands) :
    x = Name.canonical c.result ∨ x ∈ c.helpers ∨ Token.IsValue c.count ∧ x = Name.canonical c.count := by
  have hresult := Line.isValue_of_assigned? h.result
  obtain ⟨hbytes, hbytes'⟩ := isValue_derived hresult "bytes" (by decide)
  obtain ⟨hdata, hdata'⟩ := isValue_derived hresult "data" (by decide)
  obtain ⟨hslot, hslot'⟩ := isValue_derived hresult "data_slot" (by decide)
  obtain ⟨values, hvalues, hcount⟩ := hwhole.exists_reads
  have hsize : Line.operands (c.indent ++ (Name.derived c.result "bytes" ++ " = mul i64 " ++ c.count ++ ", " ++
      Text.decimal c.slotSize)) = values := by
    have hdigits : '%' ∉ Text.decimal c.slotSize := (Name.plain_decimal _).notMem (by decide)
    simp only [List.append_assoc]
    rw [(h.of_define hbytes " = mul i64 " " mul i64 " rfl _).2, Line.readsFrom_noValues_append (by decide),
      hcount _ (Line.endsValue_append (s := ", ") (by decide) _), Line.readsFrom_noValues_append (by decide),
      Line.readsFrom_valueAt?_eq_nil hdigits, List.append_nil]
  have hheader : Line.operands (c.indent ++ (c.result ++ " = call ptr @malloc(i64 16)")) = [] := by
    rw [← List.append_nil (String.toList _),
      (h.of_define hresult " = call ptr @malloc(i64 16)" " call ptr @malloc(i64 16)" rfl _).2]
    exact Line.readsFrom_noValues (by decide)
  have helements : ∀ x ∈ Line.operands (c.indent ++
      if c.layout.boxed then Name.derived c.result "data" ++ " = call ptr @calloc(i64 " ++ c.count ++ ", i64 8)"
      else Name.derived c.result "data" ++ " = call ptr @malloc(i64 " ++ Name.derived c.result "bytes" ++ ")"),
      x ∈ Name.derived c.result "bytes" :: values := by
    split
    · simp only [List.append_assoc]
      rw [(h.of_define hdata " = call ptr @calloc(i64 " " call ptr @calloc(i64 " rfl _).2,
        Line.readsFrom_noValues_append (by decide), hcount _ (by decide), Line.readsFrom_noValues (by decide),
        List.append_nil]
      exact fun x hx => List.mem_cons_of_mem _ hx
    · simp only [List.append_assoc]
      rw [(h.of_define hdata " = call ptr @malloc(i64 " " call ptr @malloc(i64 " rfl _).2,
        Line.readsFrom_noValues_append (by decide), Line.readsFrom_isValue_append hbytes (by decide),
        Line.readsFrom_noValues (by decide), hbytes']
      exact fun x hx => List.mem_cons.mpr (.inl (List.mem_singleton.mp hx))
  have hlength : Line.operands (c.indent ++ ("store i64 " ++ c.count ++ ", ptr " ++ c.result ++ ", align 8")) =
      values ++ [Name.canonical c.result] := by
    simp only [List.append_assoc]
    rw [(h.of_store rfl _).2, Line.readsFrom_noValues_append (by decide),
      hcount _ (Line.endsValue_append (s := ", ptr ") (by decide) _), Line.readsFrom_noValues_append (by decide),
      Line.readsFrom_isValue_append hresult (by decide), Line.readsFrom_noValues (by decide)]
  have hplace : Line.operands (c.indent ++ (Name.derived c.result "data_slot" ++
      " = getelementptr inbounds i8, ptr " ++ c.result ++ ", i64 8")) = [Name.canonical c.result] := by
    simp only [List.append_assoc]
    rw [(h.of_define hslot " = getelementptr inbounds i8, ptr " " getelementptr inbounds i8, ptr " rfl _).2,
      Line.readsFrom_noValues_append (by decide), Line.readsFrom_isValue_append hresult (by decide),
      Line.readsFrom_noValues (by decide)]
  have haddress : Line.operands (c.indent ++ ("store ptr " ++ Name.derived c.result "data" ++ ", ptr " ++
      Name.derived c.result "data_slot" ++ ", align 8")) =
      [Name.derived c.result "data", Name.derived c.result "data_slot"] := by
    simp only [List.append_assoc]
    rw [(h.of_store rfl _).2, Line.readsFrom_noValues_append (by decide),
      Line.readsFrom_isValue_append hdata (Line.endsValue_append (by decide) _),
      Line.readsFrom_noValues_append (by decide), Line.readsFrom_isValue_append hslot (by decide),
      Line.readsFrom_noValues (by decide), hdata', hslot']
  rw [lines_eq, instructions] at hx
  simp only [List.map_cons, List.map_nil, List.flatMap_cons, List.flatMap_nil, hsize, hheader, hlength, hplace,
    haddress, List.mem_append, List.mem_cons, List.not_mem_nil, or_false, false_or] at hx
  rcases hx with hx | hx | (hx | rfl) | rfl | rfl | rfl
  · exact .inr (.inr (hvalues x hx))
  · rcases List.mem_cons.mp (helements x hx) with rfl | hx
    · exact .inr (.inl (by simp [helpers]))
    · exact .inr (.inr (hvalues x hx))
  · exact .inr (.inr (hvalues x hx))
  · exact .inl rfl
  · exact .inl rfl
  · exact .inr (.inl (by simp [helpers]))
  · exact .inr (.inl (by simp [helpers]))

end Creation

/-- The length of the container that is allocated on a line is read whole: it is a value that the line uses,
or it mentions none. -/
def Idiom.ReadsLength (line : Text) : Prop :=
  ∀ operand ∈ lengthOperand? line, ∀ count ∈ Text.stripPrefix? operand.trim "i64 ",
    Token.IsValue count.trim ∧ Name.canonical count.trim ∈ Line.operands line ∨ Line.noValues count.trim

instance (line : Text) : Decidable (ReadsLength line) :=
  inferInstanceAs (Decidable (∀ operand ∈ lengthOperand? line, ∀ count ∈ Text.stripPrefix? operand.trim "i64 ",
    Token.IsValue count.trim ∧ Name.canonical count.trim ∈ Line.operands line ∨ Line.noValues count.trim))

private theorem Creation.Of.whole_of_readsLength {layouts : Std.ExtTreeMap Text Layout} {line operands : Text}
    {c : Creation} (h : c.Of layouts line operands) (hoperands : allocation? line = some operands)
    (hlength : ReadsLength line) :
    c.Whole ∧ (Token.IsValue c.count → Name.canonical c.count ∈ Line.operands line) := by
  obtain ⟨type, length, symbol, count, hpieces, -, -, -, hstrip, hcount⟩ := h.operands
  have hoperand : lengthOperand? line = some length := by
    rw [lengthOperand?, hoperands, Option.bind_some, hpieces]
    rfl
  rw [Creation.Whole, hcount]
  rcases hlength length hoperand count (Text.stripPrefix?_eq_some_iff.mpr hstrip) with ⟨hvalue, hused⟩ | hnone
  · exact ⟨.inl hvalue, fun _ => hused⟩
  · refine ⟨.inr hnone, fun hvalue => ?_⟩
    -- a value has a sigil
    obtain ⟨u, hu⟩ := Line.head?_of_isValue hvalue
    rw [hu] at hnone
    cases hnone

namespace Dereference.At

variable {table : AddressTable} {lines : List Text} {d : Dereference}

/-- A load takes the flag of its comparison away, and its value stays. -/
theorem definitions_perm (h : d.At table lines) (singleton : Text) :
    (d.taken.flatMap Line.definitions).Perm
      ((d.put singleton).flatMap Line.definitions ++ [Name.canonical d.check.reading.flag]) := by
  have hbr : ∀ {line : Text}, Line.Begins "br " line → Line.definitions line = [] := by
    intro line hline
    obtain ⟨u, hu⟩ := hline
    exact (Line.of_not_define fun v hv => by rw [hu] at hv; cases hv).1
  obtain ⟨hflag, rest, hcheck⟩ := exists_of_nullCheck? h.check?
  obtain ⟨-, -, hbranch, -, hjump⟩ := h.begins singleton
  have hload := Line.definitions_of_assigned? h.value
  have hflag : Line.definitions d.check.found = [Name.canonical d.check.reading.flag] :=
    (Line.of_define hcheck rfl hflag).1
  have hcast : Line.definitions (d.castLine singleton) = [Name.canonical d.value] :=
    (Line.of_define (h.trimStart_castLine singleton) rfl h.isValue).1
  simp [taken, put, hload, hflag, hcast, hbr hbranch, hbr hjump]

/-- The lines that are put in use what the lines used that are taken out. -/
theorem operands_put (h : d.At table lines) {singleton : Text} (hsingleton : '%' ∉ singleton) :
    ∀ x ∈ (d.put singleton).flatMap Line.operands, x ∈ d.taken.flatMap Line.operands := by
  have hcast : Line.operands (d.castLine singleton) = [] := by
    have hmore : Text.stripPrefix? " = bitcast ptr " " =" = some " bitcast ptr " := rfl
    rw [(Line.of_define (h.trimStart_castLine singleton) hmore h.isValue).2]
    refine Line.readsFrom_valueAt?_eq_nil (List.not_mem_append ?_ (List.not_mem_append hsingleton ?_)) _
    · decide
    · decide
  -- the label that is left is one of the two labels of the branch
  obtain ⟨hflag, hyes, rest, hno, hbranch⟩ := exists_of_branch? h.branch?
  have hoperands : Line.operands d.branch.found = Name.canonical d.branch.reading.flag ::
      Name.canonical d.branch.reading.yes :: Name.canonical d.branch.reading.no ::
        Line.readsFrom Line.valueAt? .code rest := by
    rw [(Line.of_not_define fun v hv => by rw [hbranch] at hv; cases hv).2, hbranch,
      Line.readsFrom_noValues_append (by decide),
      Line.readsFrom_isValue_append hflag (Line.endsValue_append (by decide) _),
      Line.readsFrom_noValues_append (by decide),
      Line.readsFrom_isValue_append hyes (Line.endsValue_append (by decide) _),
      Line.readsFrom_noValues_append (by decide), Line.readsFrom_valueAt?_value hno]
  have hjump : Line.operands d.jumpLine = [Name.canonical d.success] := by
    have hread : Token.read? '%' (d.success ++ []) = some (d.success, []) := h.isValue_success.read?_append nofun
    have hreads := Line.readsFrom_valueAt?_value hread
    rw [List.append_nil] at hreads
    rw [(Line.of_not_define fun v hv => by rw [h.trimStart_jumpLine] at hv; cases hv).2, h.trimStart_jumpLine,
      Line.readsFrom_noValues_append (by decide), hreads]
    rfl
  intro x hx
  have hx : x = Name.canonical d.success := by simpa [put, hcast, hjump] using hx
  have hmem : x ∈ Line.operands d.branch.found := by
    rw [hoperands, hx, success]
    rcases d.branch.reading.ifNotNull_cases d.check.reading with he | he <;> simp [he]
  simp [taken, hmem]

/-- The lines that are put in are silent if those are regular that are taken out. -/
theorem silent_put (h : d.At table lines) {tail : Text} (htail : '@' ∉ tail)
    (htaken : ∀ line ∈ d.taken, Regular table line ∨ Silent line) :
    ∀ line ∈ d.put ('@' :: '_' :: tail), Silent line := by
  rw [put, List.forall_mem_cons, List.forall_mem_singleton]
  constructor
  · rcases htaken d.load.found (.head _) with hregular | hsilent
    · exact .cast (fun _ hx => List.mem_takeWhile_imp hx) (hregular.silent_value h.value) htail
    · -- a silent line is no load
      have hload := (Cut.append_eq_of_first? h.load).2.1
      rw [load?_eq_none_of_silent hsilent] at hload
      cases hload
  · have hlabels : Silent d.branch.reading.yes ∧ Silent d.branch.reading.no := by
      rcases htaken d.branch.found (.tail _ (.tail _ (.head _))) with hregular | hsilent
      · exact hregular.silent_labels h.branch?
      · obtain ⟨hyes, hno⟩ := labels_of_branch? h.branch?
        exact ⟨hsilent.of_infix hyes, hsilent.of_infix hno⟩
    refine .jump ?_ ?_
    · rw [indent_of_branch? h.branch?]
      exact fun _ hx => List.mem_takeWhile_imp hx
    · rw [success]
      rcases d.branch.reading.ifNotNull_cases d.check.reading with he | he
      · exact he ▸ hlabels.1
      · exact he ▸ hlabels.2

end Dereference.At

namespace Container

variable {c : Context} {body new : Text}

/-! ### Values of a block -/

namespace BlockRun

variable (r : BlockRun c)

/-- The values that a run takes away from a block: the flags of comparisons, and what is assigned on lines
that go as markers. -/
def removed : List Text :=
  r.loads.map (fun d => Name.canonical d.check.reading.flag) ++ r.marked.flatMap Line.definitions

/-- The helper values that it adds. -/
def helpers : List Text :=
  r.creations.flatMap Creation.helpers

/-- What the instructions use that create containers. -/
def creationOperands : List Text :=
  r.creations.flatMap fun creation => creation.lines.flatMap Line.operands

/-- **The values that a block defines**, before and after. -/
theorem definitions_perm : (r.block.lines.flatMap Line.definitions ++ r.helpers).Perm
    (r.kept.flatMap Line.definitions ++ r.removed) := by
  have hflags : r.loads.map (fun d => Name.canonical d.check.reading.flag) =
      r.loads.flatMap fun d => [Name.canonical d.check.reading.flag] := List.map_eq_flatMap
  rw [removed, hflags]
  exact r.flatMap_perm (fun lines d hd => hd.definitions_perm c.singleton)
    fun line operands creation _ hof => hof.definitions_lines

/-- What is used once the loads have been changed was used before. -/
theorem mem_operands_between (hsingleton : '%' ∉ c.singleton) :
    ∀ line ∈ r.between, ∀ x ∈ Line.operands line, x ∈ r.block.lines.flatMap Line.operands := by
  refine r.changes.forall_mem (fun lines d hd htaken line hline x hx => ?_)
    fun line hline x hx => List.mem_flatMap.mpr ⟨line, hline, hx⟩
  obtain ⟨line', hline', hx⟩ := List.mem_flatMap.mp
    (hd.operands_put hsingleton x (List.mem_flatMap.mpr ⟨line, hline, hx⟩))
  exact htaken line' hline' x hx

/-- What is used in a block was used there before, or is used to create a container. -/
theorem mem_operands (hsingleton : '%' ∉ c.singleton) {x : Text} (hx : x ∈ r.kept.flatMap Line.operands) :
    x ∈ r.block.lines.flatMap Line.operands ∨ x ∈ r.creationOperands := by
  obtain ⟨line, hline, hx⟩ := List.mem_flatMap.mp hx
  obtain ⟨before, hbefore, hline⟩ := List.mem_flatMap.mp (List.mem_of_mem_filter hline)
  cases hoperands : allocation? before with
  | none =>
    rw [lineAfter_of_none hoperands] at hline
    rw [List.mem_singleton.mp hline] at hx
    exact .inl (r.mem_operands_between hsingleton before hbefore x hx)
  | some operands =>
    obtain ⟨creation, -, hafter⟩ := r.created before hbefore operands hoperands
    have hmem : creation ∈ r.creations := List.mem_filterMap.mpr ⟨before, hbefore, by rw [hafter]⟩
    rw [hafter] at hline
    exact .inr (List.mem_flatMap.mpr ⟨creation, hmem, List.mem_flatMap.mpr ⟨line, hline, hx⟩⟩)

/-- Where the lengths of lines are read whole, they still are once the loads have been changed: the lines
that are put in create nothing. -/
theorem readsLength_between (hc : c.Proper)
    (hlines : ∀ line ∈ r.block.lines, Regular c.table line ∧ ReadsLength line) :
    ∀ line ∈ r.between, ReadsLength line := by
  obtain ⟨tail, hsingleton, htail⟩ := hc.symbol
  have hsilent : ∀ line : Text, Silent line → ReadsLength line := by
    intro line hline operand hoperand
    rw [lengthOperand?, hline.allocation?_eq_none] at hoperand
    cases hoperand
  have hall : ∀ line ∈ r.between, Regular c.table line ∧ ReadsLength line ∨ Silent line := by
    refine r.changes.forall_mem (fun lines d hd htaken => ?_) fun line hline => .inl (hlines line hline)
    rw [hsingleton]
    exact fun line hline => .inr (hd.silent_put htail (fun t ht => (htaken t ht).imp_left And.left) line hline)
  exact fun line hline => (hall line hline).elim And.right (hsilent line)

/-- Where lengths are read whole, what the instructions use that create containers was used before, or it is
a value that they define. -/
theorem mem_creationOperands (hsingleton : '%' ∉ c.singleton) (hlengths : ∀ line ∈ r.between, ReadsLength line)
    {x : Text} (hx : x ∈ r.creationOperands) : x ∈ r.block.lines.flatMap Line.operands ∨
      x ∈ r.kept.flatMap Line.definitions ∨ x ∈ r.removed := by
  obtain ⟨creation, hcreation, hx⟩ := List.mem_flatMap.mp hx
  obtain ⟨line, hline, hafter⟩ := List.mem_filterMap.mp hcreation
  cases hoperands : allocation? line with
  | none =>
    rw [lineAfter_of_none hoperands] at hafter
    cases hafter
  | some operands =>
    obtain ⟨creation', hof, hafter'⟩ := r.created line hline operands hoperands
    rw [hafter'] at hafter
    obtain rfl : creation' = creation := Option.some.inj hafter
    have hlength := hof.whole_of_readsLength hoperands (hlengths line hline)
    -- the values that the instructions define are in the lines that are kept, or go with markers
    have hdefined : x ∈ Line.definitions line ++ creation'.helpers →
        x ∈ r.kept.flatMap Line.definitions ∨ x ∈ r.removed := by
      intro hmem
      obtain ⟨line', hline', hx⟩ := List.mem_flatMap.mp (hof.definitions_lines.mem_iff.mpr hmem)
      have hexpanded : line' ∈ r.expanded := List.mem_flatMap.mpr ⟨line, hline, by rwa [hafter']⟩
      cases hmarker : isMarker line' with
      | false => exact .inl (List.mem_flatMap.mpr ⟨line', List.mem_filter.mpr ⟨hexpanded, by simp [hmarker]⟩, hx⟩)
      | true =>
        refine .inr (List.mem_append_right _ (List.mem_flatMap.mpr ⟨line', ?_, hx⟩))
        exact List.mem_filter.mpr ⟨hexpanded, hmarker⟩
    rcases hof.mem_operands_lines hlength.1 hx with rfl | hhelper | ⟨hvalue, rfl⟩
    · refine .inr (hdefined (List.mem_append_left _ ?_))
      rw [Line.definitions_of_assigned? hof.result]
      exact List.mem_singleton.mpr rfl
    · exact .inr (hdefined (List.mem_append_right _ hhelper))
    · exact .inl (r.mem_operands_between hsingleton line hline _ (hlength.2 hvalue))

end BlockRun

/-! ### Values of a body -/

namespace BodyRun

variable (p : BodyRun c body new)

/-- The values that the blocks define that stay. -/
def stayingValues : List Text :=
  p.staying.flatMap fun r => r.block.lines.flatMap Line.definitions

/-- The values that the blocks define that are blanked. -/
def blankedValues : List Text :=
  p.blanked.flatMap fun r => r.block.lines.flatMap Line.definitions

/-- The values that go from the other blocks. -/
def removed : List Text :=
  p.staying.flatMap BlockRun.removed

/-- The helper values that come. -/
def helpers : List Text :=
  p.staying.flatMap BlockRun.helpers

/-- What the instructions use that create containers. -/
def creationOperands : List Text :=
  p.staying.flatMap BlockRun.creationOperands

/-- What the run does to the values of a body.  The known names are those of parameters, and whatever else
is written like a value: labels and types. -/
structure Values : Prop where
  /-- The values that the new body defines. -/
  definitions : (p.stayingValues ++ p.helpers).Perm (new.lines.flatMap Line.definitions ++ p.removed)
  /-- Values are still defined once if and only if each helper value has its name to itself, but for values
  that went. -/
  once_iff : ∀ known : List Text, (known ++ body.lines.flatMap Line.definitions).Nodup →
    ((known ++ new.lines.flatMap Line.definitions).Nodup ↔
      ∀ x ∈ p.helpers, (known ++ (p.stayingValues ++ p.helpers)).count x ≤ p.removed.count x + 1)
  /-- Values that are used are still defined, blanked blocks aside, if and only if those are that went or
  that are used to create a container. -/
  defined_iff : ∀ known : List Text,
    (∀ x ∈ body.lines.flatMap Line.operands, x ∈ known ++ body.lines.flatMap Line.definitions) →
    ((∀ x ∈ new.lines.flatMap Line.operands,
        x ∈ known ++ (new.lines.flatMap Line.definitions ++ p.blankedValues)) ↔
      ∀ x ∈ p.removed ++ p.creationOperands, x ∈ new.lines.flatMap Line.operands →
        x ∈ known ++ (new.lines.flatMap Line.definitions ++ p.blankedValues))
  /-- If the lengths of all containers are read whole, then only the values that went matter: what creates a
  container uses the container, its helper values, and what the allocation used. -/
  defined_iff_of_readsLength : (∀ line ∈ body.lines, Regular c.table line ∧ ReadsLength line) →
    ∀ known : List Text,
    (∀ x ∈ body.lines.flatMap Line.operands, x ∈ known ++ body.lines.flatMap Line.definitions) →
    ((∀ x ∈ new.lines.flatMap Line.operands,
        x ∈ known ++ (new.lines.flatMap Line.definitions ++ p.blankedValues)) ↔
      ∀ x ∈ p.removed, x ∈ new.lines.flatMap Line.operands →
        x ∈ known ++ (new.lines.flatMap Line.definitions ++ p.blankedValues))

/-- The values of a body are those of the blocks that stay and of those that do not. -/
theorem definitions_before : (body.lines.flatMap Line.definitions).Perm (p.stayingValues ++ p.blankedValues) := by
  have hsplit : p.blocks.Perm (p.staying ++ p.blanked) :=
    (List.filter_append_perm p.isBlanked p.blocks).symm.trans List.perm_append_comm
  rw [p.flatMap_lines_before, stayingValues, blankedValues, ← List.flatMap_append]
  exact hsplit.flatMap_right _

theorem definitions_after (hc : c.Proper) :
    (p.stayingValues ++ p.helpers).Perm (new.lines.flatMap Line.definitions ++ p.removed) := by
  rw [p.flatMap_lines hc rfl]
  have hblocks : (p.stayingValues ++ p.helpers).Perm
      (p.staying.flatMap fun r => r.block.lines.flatMap Line.definitions ++ r.helpers) :=
    List.flatMap_append_perm _ _ _
  exact (hblocks.trans (.flatMap_left _ fun r _ => r.definitions_perm)).trans
    (List.flatMap_append_perm _ _ _).symm

/-- What is used in the new body was used before, or is used to create a container. -/
theorem mem_operands (hc : c.Proper) (hsingleton : '%' ∉ c.singleton) {x : Text}
    (hx : x ∈ new.lines.flatMap Line.operands) :
    x ∈ body.lines.flatMap Line.operands ∨ x ∈ p.creationOperands := by
  rw [p.flatMap_lines hc rfl] at hx
  rw [p.flatMap_lines_before]
  obtain ⟨r, hr, hx⟩ := List.mem_flatMap.mp hx
  rcases r.mem_operands hsingleton hx with hx | hx
  · exact .inl (List.mem_flatMap.mpr ⟨r, List.mem_of_mem_filter hr, hx⟩)
  · exact .inr (List.mem_flatMap.mpr ⟨r, hr, hx⟩)

/-- Where lengths are read whole, what is used to create a container was used before, or it is defined. -/
theorem mem_creationOperands (hc : c.Proper) (hsingleton : '%' ∉ c.singleton)
    (hlengths : ∀ line ∈ body.lines, Regular c.table line ∧ ReadsLength line) {x : Text}
    (hx : x ∈ p.creationOperands) : x ∈ body.lines.flatMap Line.operands ∨
      x ∈ new.lines.flatMap Line.definitions ∨ x ∈ p.removed := by
  rw [p.flatMap_lines hc rfl, p.flatMap_lines_before]
  obtain ⟨r, hr, hx⟩ := List.mem_flatMap.mp hx
  have hblock : ∀ line ∈ r.block.lines, line ∈ body.lines := fun line hline => by
    rw [← List.flatMap_singleton' body.lines, p.flatMap_lines_before, List.mem_flatMap]
    exact ⟨r, List.mem_of_mem_filter hr, by rwa [List.flatMap_singleton']⟩
  have hbetween := r.readsLength_between hc fun line hline => hlengths line (hblock line hline)
  rcases r.mem_creationOperands hsingleton hbetween hx with hold | hnew | hremoved
  · exact .inl (List.mem_flatMap.mpr ⟨r, List.mem_of_mem_filter hr, hold⟩)
  · exact .inr (.inl (List.mem_flatMap.mpr ⟨r, hr, hnew⟩))
  · exact .inr (.inr (List.mem_flatMap.mpr ⟨r, hr, hremoved⟩))

/-- A value that was used, and hence known or defined, still is, unless it went. -/
theorem mem_of_used (hc : c.Proper) {known : List Text}
    (hbody : ∀ x ∈ body.lines.flatMap Line.operands, x ∈ known ++ body.lines.flatMap Line.definitions)
    {x : Text} (hx : x ∈ body.lines.flatMap Line.operands)
    (hremoved : x ∈ p.removed → x ∈ known ++ (new.lines.flatMap Line.definitions ++ p.blankedValues)) :
    x ∈ known ++ (new.lines.flatMap Line.definitions ++ p.blankedValues) := by
  rcases List.mem_append.mp (hbody x hx) with hknown | hdefined
  · exact List.mem_append_left _ hknown
  · rcases List.mem_append.mp (p.definitions_before.mem_iff.mp hdefined) with hstay | hblank
    · have hafter := (p.definitions_after hc).mem_iff.mp (List.mem_append_left _ hstay)
      rcases List.mem_append.mp hafter with hnew | hgone
      · exact List.mem_append_right _ (List.mem_append_left _ hnew)
      · exact hremoved hgone
    · exact List.mem_append_right _ (List.mem_append_right _ hblank)

theorem values (hc : c.Proper) (hsingleton : '%' ∉ c.singleton) : p.Values where
  definitions := p.definitions_after hc
  once_iff known hbody := by
    have hcount : ∀ x, (known ++ (p.stayingValues ++ p.helpers)).count x =
        (known ++ new.lines.flatMap Line.definitions).count x + p.removed.count x := by
      intro x
      have hperm := (p.definitions_after hc).count_eq x
      simp only [List.count_append] at hperm ⊢
      omega
    rw [List.nodup_iff_count_le_one]
    constructor
    · intro h x _
      have hx := h x
      rw [hcount]
      omega
    · intro h x
      by_cases hx : x ∈ p.helpers
      · have hx := h x hx
        rw [hcount] at hx
        omega
      · -- other values were there before
        have hold := List.nodup_iff_count_le_one.mp hbody x
        have hbefore := p.definitions_before.count_eq x
        have hnew := hcount x
        have hnone := List.count_eq_zero_of_not_mem hx
        simp only [List.count_append] at hold hbefore hnew ⊢
        omega
  defined_iff known hbody := by
    constructor
    · exact fun h x _ hx => h x hx
    · intro h x hx
      rcases p.mem_operands hc hsingleton hx with hold | hcreation
      · exact p.mem_of_used hc hbody hold fun hremoved => h x (List.mem_append_left _ hremoved) hx
      · exact h x (List.mem_append_right _ hcreation) hx
  defined_iff_of_readsLength hlengths known hbody := by
    constructor
    · exact fun h x _ hx => h x hx
    · intro h x hx
      rcases p.mem_operands hc hsingleton hx with hold | hcreation
      · exact p.mem_of_used hc hbody hold fun hremoved => h x hremoved hx
      · rcases p.mem_creationOperands hc hsingleton hlengths hcreation with hold | hnew | hremoved
        · exact p.mem_of_used hc hbody hold fun hremoved => h x hremoved hx
        · exact List.mem_append_right _ (List.mem_append_left _ hnew)
        · exact h x hremoved hx

end BodyRun

/-- The symbol of the empty instance has no sigil of a value. -/
theorem percent_notMem_singletonSymbol (stem : Text) : '%' ∉ singletonSymbol stem := by
  have hplain : Name.Plain ("_j_empty_memory_" ++ Name.sanitize stem) :=
    Name.Plain.append (Text.forall_mem_of_all (by decide)) (Name.plain_sanitize stem)
  obtain ⟨tail, hsymbol, htail⟩ := hplain.exists_symbol_eq
  rw [singletonSymbol, hsymbol, List.mem_cons, not_or]
  refine ⟨by decide, fun hmem => ?_⟩
  rcases htail '%' hmem with he | hp
  · exact absurd he (by decide)
  · exact absurd hp (by decide)

variable {heap : HeapImage} {function stem : Text} {l l' : Listing} {tally : Tally}

/-- **When values stay defined, and when they are still defined once.**  Flags go with their comparisons, even
if they are used elsewhere, and helper values get their names from containers, even if these are names of
other values. -/
theorem lower_values (h : (lower heap function stem l).value = (l', .ok tally)) :
    List.Forall₂ (fun body new => ∃ p : BodyRun (contextOf function stem l') body new, p.Values)
      l.bodies l'.bodies :=
  (forall₂_bodyRun h).imp fun _ _ hrun => ⟨hrun.some,
    hrun.some.values (proper_contextOf function stem l') (percent_notMem_singletonSymbol stem)⟩

/-- Each value of a body is defined once, and each one that is used is known or defined. -/
def WellDefined (known : List Text) (body : Text) : Prop :=
  (body.lines.flatMap Line.definitions).Nodup ∧
    ∀ x ∈ body.lines.flatMap Line.operands, x ∈ known ++ body.lines.flatMap Line.definitions

instance (known : List Text) (body : Text) : Decidable (WellDefined known body) :=
  inferInstanceAs (Decidable (_ ∧ _))

/-- Two flags go and three helper values come, and all is as it should be. -/
theorem lower_values_interleaved :
    (∀ body ∈ interleavedListing.bodies, WellDefined ["%n", "%fail", "%next"] body) ∧
    (∀ body ∈ interleavedListing.bodies, ∀ line ∈ Text.lines body,
      Regular interleavedListing.addresses line ∧ ReadsLength line) ∧
    ∃ l', (lower integerHeap "f" "f" interleavedListing).value =
        (l', .ok { dereferences := 2, allocations := 1, markers := 1 }) ∧
      (∀ body ∈ l'.bodies, WellDefined ["%n", "%fail", "%next"] body) ∧
      List.Forall₂ (fun body new => ∃ p : BodyRun (contextOf "f" "f" l') body new, p.Values)
        interleavedListing.bodies l'.bodies := by
  have hdefined : (∀ body ∈ interleavedListing.bodies, WellDefined ["%n", "%fail", "%next"] body) ∧
      ∀ body ∈ [Text.unlines interleavedResult], WellDefined ["%n", "%fail", "%next"] body := by
    unfold interleavedListing interleavedLines interleavedResult
    repeat rw [Text.toList_literal]
    decide +kernel
  have hlengths : ∀ body ∈ interleavedListing.bodies, ∀ line ∈ Text.lines body, ReadsLength line := by
    unfold interleavedListing interleavedLines
    repeat rw [Text.toList_literal]
    decide +kernel
  obtain ⟨l', hrun, hbodies⟩ := exists_of_result run_interleaved
  refine ⟨hdefined.1, fun body hbody line hline => ⟨regular_interleaved body hbody line hline, ?_⟩, l', hrun,
    hbodies ▸ hdefined.2, lower_values hrun⟩
  exact hlengths body hbody line hline

/-- A flag that is used behind its branch, and a value with the name of a helper value. -/
def flagUseLines : List Text :=
  ["  %x = load atomic ptr, ptr getelementptr inbounds (i8, ptr @T, i64 32) unordered, align 8",
    "  %c = icmp eq ptr %x, null", "  br i1 %c, label %fail, label %ok", "ok:",
    "  %z = zext i1 %c to i64", "  %m.bytes = add i64 %z, 1",
    "  %m = call ptr @jl_alloc_genericmemory(ptr @T, i64 %m.bytes)", "  ret ptr %m", "fail:", "  unreachable"]

/-- What becomes of them. -/
def flagUseResult : List Text :=
  ["  %x = bitcast ptr @_j_empty_memory_f to ptr", "  br label %ok", "ok:",
    "  %z = zext i1 %c to i64", "  %m.bytes = add i64 %z, 1", "  %m.bytes = mul i64 %m.bytes, 8",
    "  %m = call ptr @malloc(i64 16)", "  %m.data = call ptr @malloc(i64 %m.bytes)",
    "  store i64 %m.bytes, ptr %m, align 8", "  %m.data_slot = getelementptr inbounds i8, ptr %m, i64 8",
    "  store ptr %m.data, ptr %m.data_slot, align 8", "  ret ptr %m"]

/-- The listing with these lines. -/
def flagUseListing : Listing where
  bodies := [Text.unlines flagUseLines]
  addresses := integerTable

/-- The flag is used but not defined any more, and the helper value is defined twice. -/
theorem flag_and_helper_clash :
    (∀ body ∈ flagUseListing.bodies, WellDefined ["%fail", "%ok"] body) ∧
    ∃ l', (lower integerHeap "f" "f" flagUseListing).value = (l', .ok { dereferences := 1, allocations := 1 }) ∧
      l'.bodies = [Text.unlines flagUseResult] ∧
      (∀ body ∈ l'.bodies, ¬ (Text.lines body |>.flatMap Line.definitions).Nodup) ∧
      "%c".toList ∈ l'.bodies.flatMap (fun body => body.lines.flatMap Line.operands) ∧
      "%c".toList ∉ l'.bodies.flatMap (fun body => body.lines.flatMap Line.definitions) := by
  obtain ⟨hrun, hdefined⟩ : result? (lower integerHeap "f" "f" flagUseListing).value =
        some ({ dereferences := 1, allocations := 1 }, [Text.unlines flagUseResult]) ∧
      (∀ body ∈ flagUseListing.bodies, WellDefined ["%fail", "%ok"] body) ∧
      (∀ body ∈ [Text.unlines flagUseResult], ¬ (Text.lines body |>.flatMap Line.definitions).Nodup) ∧
      "%c".toList ∈ [Text.unlines flagUseResult].flatMap (fun body => Text.lines body |>.flatMap Line.operands) ∧
      "%c".toList ∉
        [Text.unlines flagUseResult].flatMap (fun body => Text.lines body |>.flatMap Line.definitions) := by
    unfold flagUseListing flagUseLines flagUseResult
    repeat rw [Text.toList_literal]
    decide +kernel
  obtain ⟨l', hvalue, hbodies⟩ := exists_of_result hrun
  exact ⟨hdefined.1, l', hvalue, hbodies, hbodies ▸ hdefined.2⟩

end Container

end Freestanding
