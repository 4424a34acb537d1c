import Freestanding.Proofs.Container.Exactness
import Freestanding.Proofs.Lists
import Mathlib.Data.List.Perm.Basic

/-!
# Runs over arbitrary bodies

Nothing is asked of the lines here.  A load that is changed takes three lines out of its block and puts
two in; an allocation is replaced by the instructions that create the container; then markers go, and in
the end whole blocks.  Each of these steps exchanges some lines for others and leaves the rest alone.  So
whatever is read off single lines is conserved but for what is read off the lines that are exchanged: one
law for a block, from which statements about labels, branches and values follow.

## Main definitions

* `Dereference.At`, `Dereference.Changes` — the load that is changed next, and the changes of a block.
* `Container.BlockRun`, `Container.BodyRun` — all that happens to a block and to a body.

## Main results

* `Dereference.At.exists_rest` — one change exchanges three lines for two.
* `Dereference.Changes.flatMap_perm` — what the changes of a block conserve.
* `Container.BlockRun.flatMap_perm` — **what all that happens to a block conserves.**
* `Container.BodyRun.flatMap_lines` — what is read off the new body.
* `Container.forall₂_bodyRun` — a run that succeeds is one of these.
-/

namespace Freestanding

open Idiom
open scoped List

/-! ### Changes of a block -/

namespace Dereference

/-- The lines that are taken out for a load. -/
def taken (d : Dereference) : List Text :=
  [d.load.found, d.check.found, d.branch.found]

/-- The lines that are put in for it. -/
def put (singleton : Text) (d : Dereference) : List Text :=
  [d.castLine singleton, d.jumpLine]

/-- The first load among the lines: its comparison is the first one of its value behind it, and its
branch the first one on the outcome behind that. -/
structure At (table : AddressTable) (lines : List Text) (d : Dereference) : Prop where
  /-- The load. -/
  load : Cut.first? (load? table) lines = some d.load
  /-- The value that it assigns. -/
  value : Line.assigned? d.load.found = some d.value
  /-- The comparison. -/
  check : Cut.first? (fun line => (nullCheck? line).filter (·.value == d.value)) d.load.after = some d.check
  /-- The branch. -/
  branch : Cut.first? (fun line => (branch? line).filter (·.flag == d.check.reading.flag)) d.check.after =
    some d.branch

/-- The loads that are changed one after the other until none is left. -/
inductive Changes (table : AddressTable) (singleton : Text) :
    List Text → List Dereference → List Text → Prop
  /-- No load is left. -/
  | done {lines : List Text} (h : ∀ line ∈ lines, load? table line = none) :
      Changes table singleton lines [] lines
  /-- The first load is changed, and then the others. -/
  | step {lines out : List Text} {d : Dereference} {ds : List Dereference} (hd : d.At table lines)
      (h : Changes table singleton (d.lines singleton) ds out) : Changes table singleton lines (d :: ds) out

variable {table : AddressTable} {function singleton : Text} {lines out failures : List Text}
  {d : Dereference} {ds : List Dereference}

/-- The loads of a block are changed one after the other. -/
theorem exists_changes (h : all table function singleton lines = .ok (out, failures)) :
    ∃ ds, Changes table singleton lines ds out ∧ failures = ds.map failure := by
  fun_induction all table function singleton lines generalizing out failures with
  | case1 => cases h
  | case2 lines hfind =>
    obtain ⟨rfl, rfl⟩ := Prod.mk.inj (Except.ok.inj h)
    exact ⟨[], .done (find_eq_ok_none_iff.mp hfind), rfl⟩
  | case3 lines d hfind ih =>
    cases hrest : all table function singleton (d.lines singleton) with
    | error e => rw [hrest] at h; cases h
    | ok rest =>
      rw [hrest] at h
      obtain ⟨rfl, rfl⟩ := Prod.mk.inj (Except.ok.inj h)
      obtain ⟨ds, hds, he⟩ := ih hrest
      obtain ⟨hload, hvalue, hcheck, hbranch⟩ := of_find hfind
      exact ⟨d :: ds, .step ⟨hload, hvalue, hcheck, hbranch⟩ hds, by rw [List.map_cons, he]⟩

namespace At

theorem check? (h : d.At table lines) : nullCheck? d.check.found = some d.check.reading :=
  (Option.filter_eq_some_iff.mp (Cut.append_eq_of_first? h.check).2.1).1

theorem branch? (h : d.At table lines) : Idiom.branch? d.branch.found = some d.branch.reading :=
  (Option.filter_eq_some_iff.mp (Cut.append_eq_of_first? h.branch).2.1).1

private theorem append_eq (h : d.At table lines) : lines = d.load.before ++ d.load.found ::
    (d.check.before ++ d.check.found :: (d.branch.before ++ d.branch.found :: d.branch.after)) := by
  rw [(Cut.append_eq_of_first? h.branch).1, (Cut.append_eq_of_first? h.check).1,
    (Cut.append_eq_of_first? h.load).1]

/-- **One change exchanges three lines for two** and leaves the others alone. -/
theorem exists_rest (h : d.At table lines) (singleton : Text) :
    ∃ rest, lines.Perm (d.taken ++ rest) ∧ (d.lines singleton).Perm (d.put singleton ++ rest) := by
  refine ⟨d.load.before ++ (d.check.before ++ (d.branch.before ++ d.branch.after)), ?_, ?_⟩
  · rw [h.append_eq]
    refine List.perm_middle.trans (.cons _ ?_)
    rw [← List.append_assoc]
    refine List.perm_middle.trans (.cons _ ?_)
    rw [List.append_assoc, ← List.append_assoc, ← List.append_assoc]
    refine List.perm_middle.trans (.cons _ ?_)
    simp
  · refine List.perm_middle.trans (.cons _ ?_)
    rw [← List.append_assoc, ← List.append_assoc]
    refine List.perm_middle.trans (.cons _ ?_)
    simp

end At

namespace Changes

variable {β : Type}

/-- What is read off the lines is conserved, but for what the lines taken out have beyond those put in. -/
theorem flatMap_perm (h : Changes table singleton lines ds out) {f : Text → List β} {g : Dereference → List β}
    (hstep : ∀ (lines : List Text) (d : Dereference), d.At table lines →
      (d.taken.flatMap f).Perm ((d.put singleton).flatMap f ++ g d)) :
    (lines.flatMap f).Perm (out.flatMap f ++ ds.flatMap g) := by
  induction h with
  | done => simp
  | @step lines out d ds hd _ ih =>
    obtain ⟨rest, hbefore, hafter⟩ := hd.exists_rest singleton
    calc lines.flatMap f
      _ ~ d.taken.flatMap f ++ rest.flatMap f := by
        rw [← List.flatMap_append]
        exact hbefore.flatMap_right f
      _ ~ ((d.put singleton).flatMap f ++ g d) ++ rest.flatMap f := (hstep lines d hd).append_right _
      _ ~ ((d.put singleton).flatMap f ++ rest.flatMap f) ++ g d := by
        rw [List.append_assoc, List.append_assoc]
        exact List.perm_append_comm.append_left _
      _ ~ (d.lines singleton).flatMap f ++ g d := by
        rw [← List.flatMap_append]
        exact (hafter.flatMap_right f).symm.append_right _
      _ ~ (out.flatMap f ++ ds.flatMap g) ++ g d := ih.append_right _
      _ ~ out.flatMap f ++ (d :: ds).flatMap g := by
        rw [List.append_assoc, List.flatMap_cons]
        exact List.perm_append_comm.append_left _

/-- What holds of the lines, and of the lines put in if it does of those taken out, holds in the end. -/
theorem forall_mem (h : Changes table singleton lines ds out) {p : Text → Prop}
    (hstep : ∀ (lines : List Text) (d : Dereference), d.At table lines → (∀ line ∈ d.taken, p line) →
      ∀ line ∈ d.put singleton, p line)
    (hlines : ∀ line ∈ lines, p line) : ∀ line ∈ out, p line := by
  induction h with
  | done => exact hlines
  | @step lines out d ds hd _ ih =>
    obtain ⟨rest, hbefore, hafter⟩ := hd.exists_rest singleton
    have hall : ∀ line ∈ d.taken ++ rest, p line := fun line hline => hlines line (hbefore.mem_iff.mpr hline)
    refine ih fun line hline => ?_
    rcases List.mem_append.mp (hafter.mem_iff.mp hline) with hput | hrest
    · exact hstep lines d hd (fun line hline => hall line (List.mem_append_left _ hline)) line hput
    · exact hall line (List.mem_append_right _ hrest)

end Changes

end Dereference

/-! ### Lines that are exchanged -/

namespace Line

/-- Behind blanks, the line begins with the word. -/
def Begins (word line : Text) : Prop :=
  ∃ rest, line.trimStart = word ++ rest

theorem begins_of_assigned? {line value : Text} (h : assigned? line = some value) : Begins "%" line := by
  obtain ⟨u, rfl⟩ := head?_of_isValue (isValue_of_assigned? h)
  obtain ⟨blanks, rest, hline, -⟩ := exists_of_assigned? h
  have hsplit : line.takeWhile Text.isBlank ++ line.trimStart = line := List.takeWhile_append_dropWhile
  exact ⟨_, List.append_cancel_left (hsplit.trans hline)⟩

/-- Lines with instructions have no label. -/
theorem label?_of_begins {line word : Text} (h : Begins word line)
    (hword : word = "%" ∨ word = "br " ∨ word = "store ") : Block.label? line = none := by
  obtain ⟨rest, hrest⟩ := h
  cases line with
  | nil => rfl
  | cons c line =>
    by_cases hc : Text.isBlank c
    · -- a blank starts neither a name nor a quoted name
      have hname := Token.isNameChar_of_isBlank hc
      have hquote : c ≠ '"' := fun he => absurd hc (by rw [he]; decide)
      rw [Block.label?, Text.run?, List.takeWhile_cons_of_neg (by rw [hname]; decide)]
      · rfl
      · exact fun t he => hquote (List.cons.inj he).1
    · rw [Text.trimStart, List.dropWhile_cons_of_neg hc] at hrest
      rw [hrest]
      rcases hword with rfl | rfl | rfl <;> rfl

end Line

namespace Idiom

/-- The parts of a comparison with null. -/
theorem exists_of_nullCheck? {line : Text} {k : NullCheck} (h : nullCheck? line = some k) :
    Token.IsValue k.flag ∧ ∃ rest, line.trimStart = k.flag ++ (" = icmp " ++ rest) := by
  unfold nullCheck? at h
  simp only [Option.bind_eq_bind, Option.bind_eq_some_iff] at h
  obtain ⟨⟨flag, t⟩, hflag, u, hu, h⟩ := h
  -- whichever of the two comparisons it is, the flag is the value that was read first
  have hk : k.flag = flag := by
    split at h
    all_goals
      simp only [Option.bind_eq_some_iff] at h
      obtain ⟨_, -, _, -, _, -, _, -, h⟩ := h
      split at h
      · rw [← Option.some.inj h]
      · cases h
  have hread := (Option.filter_eq_some_iff.mp hflag).1
  have hrest : t = " = icmp " ++ u := Text.stripPrefix?_eq_some_iff.mp hu
  rw [hk]
  exact ⟨Token.isValue_of_read? hread, u, by rw [← (Token.append_eq_of_read? hread).1, hrest]⟩

/-- The parts of a conditional branch. -/
theorem exists_of_branch? {line : Text} {b : Branch} (h : branch? line = some b) :
    Token.IsValue b.flag ∧ Token.IsValue b.yes ∧ ∃ rest, Token.read? '%' (b.no ++ rest) = some (b.no, rest) ∧
      line.trimStart = "br i1 " ++ (b.flag ++ (", label " ++ (b.yes ++ (", label " ++ (b.no ++ rest))))) := by
  unfold branch? at h
  simp only [Option.bind_eq_bind, Option.bind_eq_some_iff] at h
  obtain ⟨t, ht, ⟨flag, u⟩, hflag, v, hv, ⟨yes, w⟩, hyes, x, hx, ⟨no, y⟩, hno, he⟩ := h
  obtain rfl := Option.some.inj he
  have hflag := (Option.filter_eq_some_iff.mp hflag).1
  have hyes := (Option.filter_eq_some_iff.mp hyes).1
  have hno := (Option.filter_eq_some_iff.mp hno).1
  have hend := (Token.append_eq_of_read? hno).1
  refine ⟨Token.isValue_of_read? hflag, Token.isValue_of_read? hyes, y, by rw [hend]; exact hno, ?_⟩
  rw [hend, ← Text.stripPrefix?_eq_some_iff.mp hx, (Token.append_eq_of_read? hyes).1,
    ← Text.stripPrefix?_eq_some_iff.mp hv, (Token.append_eq_of_read? hflag).1,
    ← Text.stripPrefix?_eq_some_iff.mp ht]

end Idiom

namespace Dereference.At

variable {table : AddressTable} {lines : List Text} {d : Dereference} (h : d.At table lines)

include h

theorem isValue : Token.IsValue d.value :=
  Line.isValue_of_assigned? h.value

theorem isValue_success : Token.IsValue d.success := by
  obtain ⟨-, hyes, _, hno, -⟩ := exists_of_branch? h.branch?
  rw [success]
  rcases d.branch.reading.ifNotNull_cases d.check.reading with he | he
  · exact he ▸ hyes
  · exact he ▸ Token.isValue_of_read? hno

theorem trimStart_castLine (singleton : Text) :
    (d.castLine singleton).trimStart = d.value ++ (" = bitcast ptr " ++ (singleton ++ " to ptr")) :=
  castText_trimStart (fun _ hc => List.mem_takeWhile_imp hc) h.isValue

theorem trimStart_jumpLine : d.jumpLine.trimStart = "br label " ++ d.success := by
  rw [jumpLine, Branch.jumpText, List.append_assoc]
  refine trimStart_blanks_append ?_ fun c hc => by rw [← Option.some.inj hc]; decide
  rw [indent_of_branch? h.branch?]
  exact fun _ hc => List.mem_takeWhile_imp hc

/-- How the lines begin that are taken out and put in. -/
theorem begins (singleton : Text) : Line.Begins "%" d.load.found ∧ Line.Begins "%" d.check.found ∧
    Line.Begins "br " d.branch.found ∧ Line.Begins "%" (d.castLine singleton) ∧
    Line.Begins "br " d.jumpLine := by
  obtain ⟨u, hu⟩ := Line.head?_of_isValue h.isValue
  obtain ⟨hflag, rest, hcheck⟩ := exists_of_nullCheck? h.check?
  obtain ⟨v, hv⟩ := Line.head?_of_isValue hflag
  obtain ⟨-, -, _, -, hbranch⟩ := exists_of_branch? h.branch?
  refine ⟨Line.begins_of_assigned? h.value, ⟨v ++ (" = icmp " ++ rest), by rw [hcheck, hv]; rfl⟩,
    ⟨_, hbranch⟩, ⟨u ++ (" = bitcast ptr " ++ (singleton ++ " to ptr")), ?_⟩, ⟨_, h.trimStart_jumpLine⟩⟩
  rw [h.trimStart_castLine, hu]
  rfl

end Dereference.At

namespace Creation

variable {layouts : Std.ExtTreeMap Text Layout} {line operands : Text} {c : Creation}

/-- The instructions that create a container, without white space before them. -/
def instructions (c : Creation) : List Text :=
  [Name.derived c.result "bytes" ++ " = mul i64 " ++ c.count ++ ", " ++ Text.decimal c.slotSize,
    c.result ++ " = call ptr @malloc(i64 16)",
    if c.layout.boxed then Name.derived c.result "data" ++ " = call ptr @calloc(i64 " ++ c.count ++ ", i64 8)"
    else Name.derived c.result "data" ++ " = call ptr @malloc(i64 " ++ Name.derived c.result "bytes" ++ ")",
    "store i64 " ++ c.count ++ ", ptr " ++ c.result ++ ", align 8",
    Name.derived c.result "data_slot" ++ " = getelementptr inbounds i8, ptr " ++ c.result ++ ", i64 8",
    "store ptr " ++ Name.derived c.result "data" ++ ", ptr " ++ Name.derived c.result "data_slot" ++
      ", align 8"]

theorem lines_eq (c : Creation) : c.lines = c.instructions.map (c.indent ++ ·) := rfl

private theorem head?_derived (token suffix : Text) : ∃ u, Name.derived token suffix = '%' :: u := by
  unfold Name.derived Name.value Name.write
  split <;> exact ⟨_, rfl⟩

/-- The instructions begin with a value or with the word for a store. -/
theorem Of.instructions_begin (h : c.Of layouts line operands) :
    ∀ t ∈ c.instructions, (∃ u, t = '%' :: u) ∨ ∃ u, t = "store " ++ u := by
  obtain ⟨u, hu⟩ := Line.head?_of_isValue (Line.isValue_of_assigned? h.result)
  obtain ⟨bytes, hbytes⟩ := head?_derived c.result "bytes"
  obtain ⟨data, hdata⟩ := head?_derived c.result "data"
  obtain ⟨slot, hslot⟩ := head?_derived c.result "data_slot"
  intro t ht
  simp only [instructions, List.mem_cons, List.not_mem_nil, or_false] at ht
  rcases ht with rfl | rfl | rfl | rfl | rfl | rfl
  · exact .inl ⟨_, by rw [hbytes]; rfl⟩
  · exact .inl ⟨_, by rw [hu]; rfl⟩
  · split
    · exact .inl ⟨_, by rw [hdata]; rfl⟩
    · exact .inl ⟨_, by rw [hdata]; rfl⟩
  · exact .inr ⟨_, rfl⟩
  · exact .inl ⟨_, by rw [hslot]; rfl⟩
  · exact .inr ⟨_, rfl⟩

theorem Of.blank_of_mem_indent (h : c.Of layouts line operands) : ∀ x ∈ c.indent, Text.isBlank x := by
  rw [h.indent]
  exact fun _ hx => List.mem_takeWhile_imp hx

/-- How the lines begin that create a container. -/
theorem Of.begins (h : c.Of layouts line operands) :
    ∀ t ∈ c.lines, Line.Begins "%" t ∨ Line.Begins "store " t := by
  intro t ht
  rw [lines_eq] at ht
  obtain ⟨i, hi, rfl⟩ := List.mem_map.mp ht
  rcases h.instructions_begin i hi with ⟨u, rfl⟩ | ⟨u, rfl⟩
  · exact .inl ⟨u, trimStart_blanks_append h.blank_of_mem_indent fun x hx => by
      rw [← Option.some.inj hx]; decide⟩
  · exact .inr ⟨u, trimStart_blanks_append h.blank_of_mem_indent fun x hx => by
      rw [← Option.some.inj hx]; decide⟩

end Creation

namespace Container

variable {c : Context}

/-! ### Runs over a block -/

/-- All that happens to a block. -/
structure BlockRun (c : Context) where
  /-- The block. -/
  block : Block
  /-- The loads that are changed. -/
  loads : List Dereference
  /-- The lines after that. -/
  between : List Text
  /-- The loads are changed one after the other. -/
  changes : Dereference.Changes c.table c.singleton block.lines loads between
  /-- All allocations that are there can be replaced. -/
  created : ∀ line ∈ between, ∀ operands, allocation? line = some operands →
    ∃ creation : Creation, creation.Of c.layouts line operands ∧
      lineAfter c line = (creation.lines, some creation)

namespace BlockRun

variable {β : Type} (r : BlockRun c)

/-- Where the branches of the loads led for a null value. -/
def failures : List Text :=
  r.loads.map Dereference.failure

/-- The containers that are created. -/
def creations : List Creation :=
  r.between.filterMap fun line => (lineAfter c line).2

/-- The lines with the instructions that create them. -/
def expanded : List Text :=
  r.between.flatMap fun line => (lineAfter c line).1

/-- The lines that are kept. -/
def kept : List Text :=
  r.expanded.filter (!isMarker ·)

/-- The lines that go as markers. -/
def marked : List Text :=
  r.expanded.filter isMarker

/-- What is read off the lines is conserved by replacing allocations, but for what the new instructions
have beyond the allocation. -/
theorem expanded_perm {f : Text → List β} {g : Creation → List β}
    (hcreation : ∀ (line operands : Text) (creation : Creation), allocation? line = some operands →
      creation.Of c.layouts line operands → (creation.lines.flatMap f).Perm (f line ++ g creation)) :
    (r.expanded.flatMap f).Perm (r.between.flatMap f ++ r.creations.flatMap g) := by
  have hlines : ∀ lines : List Text, (∀ line ∈ lines, ∀ operands, allocation? line = some operands →
      ∃ creation : Creation, creation.Of c.layouts line operands ∧
        lineAfter c line = (creation.lines, some creation)) →
      ((lines.flatMap fun line => (lineAfter c line).1).flatMap f).Perm
        (lines.flatMap f ++ (lines.filterMap fun line => (lineAfter c line).2).flatMap g) := by
    intro lines hcreated
    induction lines with
    | nil => simp
    | cons line lines ih =>
      obtain ⟨hline, hrest⟩ := List.forall_mem_cons.mp hcreated
      have ih := ih hrest
      rw [List.flatMap_cons, List.flatMap_append, List.flatMap_cons]
      cases hoperands : allocation? line with
      | none =>
        rw [lineAfter_of_none hoperands, List.filterMap_cons_none (by rw [lineAfter_of_none hoperands]),
          List.flatMap_singleton, List.append_assoc]
        exact ih.append_left _
      | some operands =>
        obtain ⟨creation, hof, hafter⟩ := hline operands hoperands
        rw [List.filterMap_cons_some (by rw [hafter]), hafter, List.flatMap_cons]
        refine ((hcreation line operands creation hoperands hof).append ih).trans ?_
        rw [List.append_assoc, List.append_assoc, ← List.append_assoc (g creation),
          ← List.append_assoc (lines.flatMap f)]
        exact (List.perm_append_comm.append_right _).append_left _
  exact hlines r.between r.created

/-- **What is read off the lines of a block is conserved**, but for what the lines taken out for a load
have beyond those put in, what new instructions have beyond the allocation, and what goes with markers. -/
theorem flatMap_perm {f : Text → List β} {g : Dereference → List β} {g' : Creation → List β}
    (hload : ∀ (lines : List Text) (d : Dereference), d.At c.table lines →
      (d.taken.flatMap f).Perm ((d.put c.singleton).flatMap f ++ g d))
    (hcreation : ∀ (line operands : Text) (creation : Creation), allocation? line = some operands →
      creation.Of c.layouts line operands → (creation.lines.flatMap f).Perm (f line ++ g' creation)) :
    (r.block.lines.flatMap f ++ r.creations.flatMap g').Perm
      (r.kept.flatMap f ++ (r.loads.flatMap g ++ r.marked.flatMap f)) := by
  have hmarkers : (r.expanded.flatMap f).Perm (r.kept.flatMap f ++ r.marked.flatMap f) := by
    have hsplit := (List.filter_append_perm isMarker r.expanded).symm.trans List.perm_append_comm
    rw [← List.flatMap_append]
    exact hsplit.flatMap_right f
  calc r.block.lines.flatMap f ++ r.creations.flatMap g'
    _ ~ (r.between.flatMap f ++ r.loads.flatMap g) ++ r.creations.flatMap g' :=
      (r.changes.flatMap_perm hload).append_right _
    _ ~ (r.between.flatMap f ++ r.creations.flatMap g') ++ r.loads.flatMap g := by
      rw [List.append_assoc, List.append_assoc]
      exact List.perm_append_comm.append_left _
    _ ~ (r.kept.flatMap f ++ r.marked.flatMap f) ++ r.loads.flatMap g :=
      ((r.expanded_perm hcreation).symm.trans hmarkers).append_right _
    _ ~ r.kept.flatMap f ++ (r.loads.flatMap g ++ r.marked.flatMap f) := by
      rw [List.append_assoc]
      exact List.perm_append_comm.append_left _

/-- The lines that are put in for a load are single lines. -/
theorem newline_notMem_put (hc : c.Proper) {lines : List Text} {d : Dereference} (hd : d.At c.table lines)
    (htaken : ∀ line ∈ d.taken, '\n' ∉ line) : ∀ line ∈ d.put c.singleton, '\n' ∉ line := by
  intro line hline
  rcases List.mem_pair.mp hline with rfl | rfl
  · exact newline_notMem_castText (htaken d.load.found (.head _)) hd.value hc.newline
  · exact newline_notMem_jumpText (htaken d.branch.found (.tail _ (.tail _ (.head _)))) hd.branch? d.check.reading

/-- The lines that are kept are single lines. -/
theorem newline_notMem_kept (hc : c.Proper) (hlines : ∀ line ∈ r.block.lines, '\n' ∉ line) :
    ∀ line ∈ r.kept, '\n' ∉ line := by
  have hbetween : ∀ line ∈ r.between, '\n' ∉ line :=
    r.changes.forall_mem (fun _ _ hd htaken => newline_notMem_put hc hd htaken) hlines
  intro line hline
  obtain ⟨before, hbefore, hline⟩ := List.mem_flatMap.mp (List.mem_of_mem_filter hline)
  cases hoperands : allocation? before with
  | none =>
    rw [lineAfter_of_none hoperands] at hline
    rw [List.mem_singleton.mp hline]
    exact hbetween before hbefore
  | some operands =>
    obtain ⟨creation, hof, hafter⟩ := r.created before hbefore operands hoperands
    rw [hafter] at hline
    exact hof.newline_notMem_lines (allocates_of_allocation? hoperands) (hbetween before hbefore) line hline

end BlockRun

/-- A block that is changed has a run. -/
theorem exists_blockRun {b b' : Block} {labels : List Text} {tally : Tally}
    (h : lowerBlock c b = .ok (b', labels, tally)) :
    ∃ r : BlockRun c, r.block = b ∧ b' = { r.block with lines := r.kept } ∧ labels = r.failures := by
  unfold lowerBlock at h
  obtain ⟨⟨out, labels'⟩, hall, h⟩ := Except.bind_eq_ok_iff.mp h
  obtain ⟨lowered, hlowered, h⟩ := Except.bind_eq_ok_iff.mp h
  obtain ⟨rfl, hrest⟩ := Prod.mk.inj (Except.ok.inj h)
  obtain ⟨rfl, -⟩ := Prod.mk.inj hrest
  obtain ⟨ds, hchanges, rfl⟩ := Dereference.exists_changes hall
  obtain ⟨rfl, hcreated⟩ := lowered_eq hlowered
  refine ⟨⟨b, ds, out, hchanges, hcreated⟩, rfl, ?_, rfl⟩
  rw [List.flatMap_map]
  rfl

/-! ### Runs over a body -/

/-- All that happens to a body. -/
structure BodyRun (c : Context) (body new : Text) where
  /-- The runs over its blocks. -/
  blocks : List (BlockRun c)
  /-- They are the blocks of the body. -/
  split : blocks.map BlockRun.block = Block.split body
  /-- The branches of the loads led to blocks of the body. -/
  labels : ∀ label ∈ blocks.flatMap BlockRun.failures, ∃ b ∈ Block.split body, b.hasLabel label
  /-- The new body has the lines of all blocks but the first ones with these labels. -/
  lines : new = Text.unlines ((blocks.filter fun r =>
    !Block.isTarget (blocks.flatMap BlockRun.failures) (Block.split body) r.block).flatMap BlockRun.kept)

namespace BodyRun

variable {body new : Text} (p : BodyRun c body new)

/-- The block is blanked: it is the first one with a label to which the branch of a load led for a null
value. -/
def isBlanked (r : BlockRun c) : Bool :=
  Block.isTarget (p.blocks.flatMap BlockRun.failures) (Block.split body) r.block

/-- The blocks that stay. -/
def staying : List (BlockRun c) :=
  p.blocks.filter (!p.isBlanked ·)

/-- The blocks that are blanked. -/
def blanked : List (BlockRun c) :=
  p.blocks.filter p.isBlanked

/-- What is read off the body is read off its blocks. -/
theorem flatMap_lines_before {β : Type} (f : Text → List β) :
    body.lines.flatMap f = p.blocks.flatMap fun r => r.block.lines.flatMap f := by
  rw [← Block.flatMap_lines_split, ← p.split, List.flatMap_map, List.flatMap_assoc]

/-- **What is read off the new body is read off the blocks that stay.** -/
theorem flatMap_lines {β : Type} (hc : c.Proper) {f : Text → List β} (hnil : f [] = []) :
    new.lines.flatMap f = p.staying.flatMap fun r => r.kept.flatMap f := by
  have hsingle : ∀ line ∈ p.staying.flatMap BlockRun.kept, '\n' ∉ line := by
    intro line hline
    obtain ⟨r, hr, hline⟩ := List.mem_flatMap.mp hline
    refine r.newline_notMem_kept hc (fun line hline => Text.notMem_of_mem_lines (t := body) ?_) line hline
    rw [← Block.flatMap_lines_split, ← p.split, List.flatMap_map]
    exact List.mem_flatMap.mpr ⟨r, List.mem_of_mem_filter hr, hline⟩
  have hnew : new = Text.unlines (p.staying.flatMap BlockRun.kept) := p.lines
  rw [← List.flatMap_assoc]
  generalize p.staying.flatMap BlockRun.kept = lines at hsingle hnew ⊢
  rw [hnew]
  -- a body without lines is one empty line
  cases lines with
  | nil => exact (List.append_nil _).trans hnil
  | cons line lines =>
    rw [Text.lines_unlines (List.cons_ne_nil _ _)]
    exact List.all_eq_true.mpr fun t ht => List.all_eq_true.mpr fun d hd =>
      bne_iff_ne.mpr fun he => hsingle t ht (he ▸ hd)

end BodyRun

/-- A body that is changed has a run. -/
theorem nonempty_bodyRun {body new : Text} {tally : Tally} (h : lowerBody c body = .ok (new, tally)) :
    Nonempty (BodyRun c body new) := by
  unfold lowerBody at h
  obtain ⟨lowered, hlowered, h⟩ := Except.bind_eq_ok_iff.mp h
  obtain ⟨blocks, hblank, h⟩ := Except.bind_eq_ok_iff.mp h
  obtain ⟨rfl, -⟩ := Prod.mk.inj (Except.ok.inj h)
  have hruns : ∀ {blocks : List Block} {lowered : List (Block × List Text × Tally)},
      List.Forall₂ (fun b after => lowerBlock c b = .ok after) blocks lowered →
      ∃ runs : List (BlockRun c), runs.map BlockRun.block = blocks ∧
        lowered.map (·.1) = runs.map (fun r => { r.block with lines := r.kept }) ∧
        lowered.flatMap (·.2.1) = runs.flatMap BlockRun.failures := by
    intro blocks lowered hall
    induction hall with
    | nil => exact ⟨[], rfl, rfl, rfl⟩
    | @cons b after _ _ hfirst _ ih =>
      obtain ⟨runs, hblocks, hafter, hlabels⟩ := ih
      obtain ⟨b', labels, tally⟩ := after
      obtain ⟨r, rfl, rfl, rfl⟩ := exists_blockRun hfirst
      exact ⟨r :: runs, by rw [List.map_cons, hblocks], by rw [List.map_cons, List.map_cons, hafter],
        by rw [List.flatMap_cons, List.flatMap_cons, hlabels]⟩
  obtain ⟨runs, hsplit, hafter, hlabels⟩ := hruns (Except.mapM_eq_ok_iff.mp hlowered)
  -- the blocks keep their labels and positions
  have hsignature : (runs.map fun r => { r.block with lines := r.kept }).map (fun b => (b.label, b.index)) =
      (Block.split body).map fun b => (b.label, b.index) := by
    rw [← hsplit, List.map_map, List.map_map]
    rfl
  have hindex : ((runs.map fun r => { r.block with lines := r.kept }).map Block.index).Nodup := by
    have hnodup := Block.nodup_index_split body
    rw [← hsplit, List.map_map] at hnodup
    rwa [List.map_map]
  rw [hafter, hlabels] at hblank
  obtain ⟨hfound, rfl⟩ := blankLabels_eq_ok hblank hindex
  refine ⟨⟨runs, hsplit, fun label hlabel => ?_, ?_⟩⟩
  · obtain ⟨b, hb, hlabel⟩ := hfound label hlabel
    obtain ⟨r, hr, rfl⟩ := List.mem_map.mp hb
    exact ⟨r.block, hsplit ▸ List.mem_map_of_mem hr, hlabel⟩
  · rw [Block.join, List.map_map, List.flatMap_map]
    refine congrArg Text.unlines ((List.flatMap_congr fun r _ => ?_).trans (List.flatMap_filter_not _ _ _).symm)
    have htarget : Block.isTarget (runs.flatMap BlockRun.failures)
        (runs.map fun r => { r.block with lines := r.kept }) { r.block with lines := r.kept } =
        Block.isTarget (runs.flatMap BlockRun.failures) (Block.split body) r.block :=
      Block.isTarget_congr hsignature _ rfl
    rw [Function.comp_apply, htarget]
    cases Block.isTarget (runs.flatMap BlockRun.failures) (Block.split body) r.block <;> rfl

/-- The bodies of a listing are changed one by one. -/
theorem forall₂_bodyRun {heap : HeapImage} {function stem : Text} {l l' : Listing} {tally : Tally}
    (h : (lower heap function stem l).value = (l', .ok tally)) :
    List.Forall₂ (fun body new => Nonempty (BodyRun (contextOf function stem l') body new))
      l.bodies l'.bodies := by
  obtain ⟨layouts, bodies, -, hlower, hl⟩ := exists_of_lower h
  obtain ⟨hbodies, hlayouts, haddresses⟩ : l'.bodies = bodies ∧ l'.layouts = layouts ∧
      l'.addresses = l.addresses := by
    rw [hl]
    exact frame_provide _ _ _
  subst hbodies hlayouts
  rw [← haddresses] at hlower
  have hall : ∀ {c : Context} {bodies news : List Text} {tally : Tally},
      lowerBodies c bodies = (news, .ok tally) →
      List.Forall₂ (fun body new => Nonempty (BodyRun c body new)) bodies news := by
    intro c bodies
    induction bodies with
    | nil =>
      intro news tally h
      obtain ⟨rfl, -⟩ := Prod.mk.inj h
      exact .nil
    | cons body bodies ih =>
      intro news tally h
      rw [lowerBodies] at h
      split at h
      · cases (Prod.mk.inj h).2
      · next new tally' hnew =>
        obtain ⟨rfl, htally⟩ := Prod.mk.inj h
        cases hok : (lowerBodies c bodies).2 with
        | error e => rw [hok] at htally; cases htally
        | ok more => exact .cons (nonempty_bodyRun hnew) (ih (Prod.ext rfl hok))
  exact hall hlower

end Container

end Freestanding
