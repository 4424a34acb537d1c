import Freestanding.Proofs.Container.Runs
import Freestanding.Proofs.Line.Code

/-!
# Rounds over a block

Loads are changed in rounds.  A round searches the block from the start, and what an earlier round put in is
searched again: it holds names of the block, and such a name may hold the text of a load.  So a round need not
leave fewer lines on which a load is found than there were.  But it always takes the comparison away, so that
the block has one line less after each round, and there are at most as many rounds as lines.

When nothing is found any more, a load may still be there.  A line is judged by the first text of a load on it,
which may be part of a quoted name and speak of something that is no container type; then the instruction
behind it is not looked at.  This is the only way in which a load can be left.

## Main definitions

* `Idiom.loads` — the loads of a line that are code.
* `Dereference.Rounds` — rounds one after the other.
* `Dereference.Left`, `Dereference.Hides` — a load is left; it is hidden by the text of another one.
* `Dereference.Ends` — how the rounds over a block end.

## Main results

* `Dereference.Rounds.length_add` — each round makes the block one line shorter.
* `Dereference.Rounds.isPrefix` — a block has one course of rounds.
* `Dereference.exists_ends` — **the rounds come to an end, and a load is left only where it is hidden.**
* `Dereference.hiddenLoad_left` — a load behind a quoted name with the text of another one is left.
-/

namespace Freestanding

open Region

/-! ### Loads of a line -/

/-- Nothing is read as code if nothing can be read at any place. -/
theorem Line.readsFrom_eq_nil {α : Type} {f : Text → Option α} {t : Text} (h : t.first? f = none) (mode : Mode) :
    readsFrom f mode t = [] := by
  induction t generalizing mode with
  | nil => rfl
  | cons c t ih =>
    have hhere : f (c :: t) = none := by
      cases hc : f (c :: t) with
      | none => rfl
      | some a => rw [Text.first?, hc] at h; cases h
    rw [Text.first?, hhere] at h
    rw [readsFrom, hhere, ite_self, ih h]
    rfl

namespace Idiom

/-- The types whose empty instances a line loads.  Only code counts: the text of a load within a quoted name or
a comment loads nothing. -/
def loads (line : Text) : List Text :=
  Line.readsFrom emptyLoadAt? .code line

variable {rest : Text}

theorem emptyLoadAt?_cons_eq_none {c : Char} (hc : c ≠ 'l') (t : Text) : emptyLoadAt? (c :: t) = none := by
  rw [Option.eq_none_iff_forall_ne_some]
  intro symbol h
  obtain ⟨u, hu⟩ := begins_of_emptyLoadAt? h
  exact hc (List.cons.inj hu).1.symm

/-- No load begins with a bare name, unless the text goes on as the text of a load does. -/
theorem emptyLoadAt?_name_eq_none {name : Text} (hname : name.all Token.isNameChar)
    (hrest : ∀ c, rest.head? = some c → Token.isNameChar c = false) (hatomic : ¬ (" atomic" : Text) <+: rest) :
    emptyLoadAt? (name ++ rest) = none := by
  rw [Option.eq_none_iff_forall_ne_some]
  intro symbol h
  obtain ⟨u, hu⟩ := begins_of_emptyLoadAt? h
  have hliteral : ("load atomic ptr, ptr getelementptr inbounds (i8, ptr @" : Text) =
      "load" ++ (" atomic" ++ " ptr, ptr getelementptr inbounds (i8, ptr @") := by decide
  rw [hliteral, List.append_assoc, List.append_assoc] at hu
  have hword : name = "load" := by
    have hload := congrArg (List.takeWhile Token.isNameChar) hu
    have hstop : rest.takeWhile Token.isNameChar = [] := by
      cases rest with
      | nil => rfl
      | cons c rest => rw [List.takeWhile_cons_of_neg (by rw [hrest c rfl]; decide)]
    rw [List.takeWhile_append_of_pos (Text.forall_mem_of_all (by decide)),
      List.takeWhile_append_of_pos (List.all_eq_true.mp hname), hstop, List.append_nil] at hload
    exact hload.symm
  rw [hword] at hu
  exact hatomic ⟨_, List.append_cancel_left hu⟩

/-- Nothing is loaded by a text that separates idioms. -/
theorem readsFrom_separates {lit : Text} (h : separates lit) (hcode : lit.all fun c => c != '"' && c != ';') :
    Line.readsFrom emptyLoadAt? .code (lit ++ rest) = Line.readsFrom emptyLoadAt? .code rest := by
  refine Line.readsFrom_append (fun c hc => ?_) fun x y he hy => ?_
  · simpa using List.all_eq_true.mp hcode c hc
  · rw [Option.eq_none_iff_forall_ne_some]
    intro symbol hsymbol
    obtain ⟨u, hu⟩ := begins_of_emptyLoadAt? hsymbol
    exact (separates_spec h).2.1 _ (.head _) y ⟨x, he.symm⟩ hy u rest hu

/-- Nothing is loaded by white space. -/
theorem readsFrom_blanks {indent : Text} (h : ∀ c ∈ indent, Text.isBlank c) :
    Line.readsFrom emptyLoadAt? .code (indent ++ rest) = Line.readsFrom emptyLoadAt? .code rest := by
  refine Line.readsFrom_append (fun c hc => ?_) fun x y he hy => ?_
  · exact ⟨Text.ne_of_isBlank (h c hc) (by decide), Text.ne_of_isBlank (h c hc) (by decide)⟩
  · obtain ⟨c, y, rfl⟩ := List.exists_cons_of_ne_nil hy
    exact emptyLoadAt?_cons_eq_none (Text.ne_of_isBlank (h c (by rw [he]; simp)) (by decide)) _

/-- Nothing is loaded by the name of a value. -/
theorem readsFrom_value {value : Text} (h : Token.IsValue value)
    (hrest : ∀ c, rest.head? = some c → Token.isNameChar c = false) (hatomic : ¬ (" atomic" : Text) <+: rest) :
    Line.readsFrom emptyLoadAt? .code (value ++ rest) = Line.readsFrom emptyLoadAt? .code rest := by
  obtain ⟨u, hu⟩ := Line.head?_of_isValue h
  rw [Line.readsFrom_value_append h (emptyLoadAt?_cons_eq_none (by decide))
    fun name _ hname => emptyLoadAt?_name_eq_none hname hrest hatomic, hu, List.cons_append,
    emptyLoadAt?_cons_eq_none (by decide)]
  rfl

end Idiom

open Idiom

namespace Dereference

variable {table : AddressTable} {function singleton stem : Text} {lines out out' : List Text}
  {d : Dereference} {ds ds' : List Dereference}

/-- The cast of the empty instance loads nothing. -/
theorem At.loads_castLine (h : d.At table lines) (stem : Text) :
    loads (d.castLine (Container.singletonSymbol stem)) = [] := by
  obtain ⟨tail, htail, hat⟩ := Container.exists_singletonSymbol_eq stem
  have hsilent : Silent (" = bitcast ptr " ++ ('@' :: '_' :: tail ++ " to ptr")) := by
    have hcast := Silent.cast (List.forall_mem_nil _) Silent.nil hat
    rwa [List.append_assoc, List.nil_append, List.nil_append] at hcast
  have hline : d.castLine (Container.singletonSymbol stem) =
      d.load.found.takeWhile Text.isBlank ++ (d.value ++ (" = bitcast ptr " ++ ('@' :: '_' :: tail ++ " to ptr"))) := by
    rw [castLine, castText, htail]
    simp only [List.append_assoc]
  rw [loads, hline, readsFrom_blanks fun c hc => List.mem_takeWhile_imp hc,
    readsFrom_value h.isValue (fun c hc => by rw [← Option.some.inj hc]; decide)
      (fun hatomic => ?_)]
  · exact Line.readsFrom_eq_nil hsilent.emptyLoad?_eq_none .code
  · -- an equals sign stands where the text of a load goes on
    obtain ⟨u, hu⟩ := hatomic
    cases hu

/-- The jump loads nothing. -/
theorem At.loads_jumpLine (h : d.At table lines) : loads d.jumpLine = [] := by
  have hindent : ∀ c ∈ d.branch.reading.indent, Text.isBlank c := by
    rw [indent_of_branch? h.branch?]
    exact fun c hc => List.mem_takeWhile_imp hc
  have hline : d.jumpLine = d.branch.reading.indent ++ (("br label " : Text) ++ (d.success ++ [])) := by
    rw [jumpLine, Branch.jumpText, List.append_assoc, List.append_nil]
  rw [loads, hline, readsFrom_blanks hindent, readsFrom_separates separates_jump (by decide),
    readsFrom_value h.isValue_success (fun c hc => by cases hc) (fun hatomic => ?_)]
  · rfl
  · cases List.prefix_nil.mp hatomic

/-! ### Rounds -/

/-- Rounds one after the other, each of which changes the first load that is found. -/
inductive Rounds (table : AddressTable) (function singleton : Text) :
    List Text → List Dereference → List Text → Prop
  /-- No round yet. -/
  | start (lines : List Text) : Rounds table function singleton lines [] lines
  /-- One round, and more of them on the lines that it leaves. -/
  | round {lines out : List Text} {d : Dereference} {ds : List Dereference}
      (hd : find table function lines = .ok (some d))
      (h : Rounds table function singleton (d.lines singleton) ds out) :
      Rounds table function singleton lines (d :: ds) out

/-- **Each round makes the block one line shorter.** -/
theorem Rounds.length_add (h : Rounds table function singleton lines ds out) :
    ds.length + out.length = lines.length := by
  induction h with
  | start => exact Nat.zero_add _
  | round hd _ ih =>
    have hshorter := length_lines singleton hd
    rw [List.length_cons]
    omega

/-- **A block has one course of rounds**: it goes on as long as something is found. -/
theorem Rounds.isPrefix (h : Rounds table function singleton lines ds out)
    (hend : ∀ d, find table function out ≠ .ok (some d)) (h' : Rounds table function singleton lines ds' out') :
    ds' <+: ds := by
  induction h' generalizing ds with
  | start => exact List.nil_prefix
  | round hd' _ ih =>
    cases h with
    | start => exact absurd hd' (hend _)
    | round hd h =>
      obtain rfl := Option.some.inj (Except.ok.inj (hd.symm.trans hd'))
      exact (List.prefix_cons_inj _).mpr (ih h)

/-- Rounds after which nothing is found make up all changes of the block. -/
theorem Rounds.changes (h : Rounds table function singleton lines ds out)
    (hend : find table function out = .ok none) : Changes table singleton lines ds out := by
  induction h with
  | start => exact .done (find_eq_ok_none_iff.mp hend)
  | round hd _ ih =>
    obtain ⟨hload, hvalue, hcheck, hbranch⟩ := of_find hd
    exact .step ⟨hload, hvalue, hcheck, hbranch⟩ (ih hend)

/-- A search fails only where something is missing that belongs to a load. -/
theorem exists_malformed_of_find {e : Error} (h : find table function lines = .error e) :
    ∃ detail, e = malformed function detail := by
  unfold find at h
  split at h
  · cases h
  · next load _ =>
    have hcomplete : complete function load = .error e := by
      cases hload : complete function load with
      | error e' => rw [hload] at h; rw [Except.error.inj h]
      | ok d => rw [hload] at h; cases h
    unfold complete at hcomplete
    split at hcomplete
    · exact ⟨_, (Except.error.inj hcomplete).symm⟩
    · split at hcomplete
      · exact ⟨_, (Except.error.inj hcomplete).symm⟩
      · dsimp only at hcomplete
        split at hcomplete
        · exact ⟨_, (Except.error.inj hcomplete).symm⟩
        · cases hcomplete

/-- The rounds go on until nothing is found or the search fails, and their result is that of the block. -/
theorem exists_rounds (table : AddressTable) (function singleton : Text) (lines : List Text) :
    ∃ ds out, Rounds table function singleton lines ds out ∧
      ((find table function out = .ok none ∧
          all table function singleton lines = .ok (out, ds.map failure)) ∨
        ∃ detail, find table function out = .error (malformed function detail) ∧
          all table function singleton lines = .error (malformed function detail)) := by
  fun_induction all table function singleton lines with
  | case1 lines e hfind =>
    obtain ⟨detail, rfl⟩ := exists_malformed_of_find hfind
    exact ⟨[], lines, .start lines, .inr ⟨detail, hfind, rfl⟩⟩
  | case2 lines hfind => exact ⟨[], lines, .start lines, .inl ⟨hfind, rfl⟩⟩
  | case3 lines d hfind ih =>
    obtain ⟨ds, out, hrounds, ⟨hend, hall⟩ | ⟨detail, hend, hall⟩⟩ := ih
    · exact ⟨d :: ds, out, .round hfind hrounds, .inl ⟨hend, by rw [hall]; rfl⟩⟩
    · exact ⟨d :: ds, out, .round hfind hrounds, .inr ⟨detail, hend, by rw [hall]; rfl⟩⟩

/-! ### Loads that are left -/

/-- The lines still load the empty instance of a container type. -/
def Left (table : AddressTable) (lines : List Text) : Prop :=
  ∃ line ∈ lines, ∃ symbol ∈ loads line, table.isContainer symbol

/-- The line loads the empty instance of a container type, but the first text of a load on it speaks of
something else. -/
structure Hides (table : AddressTable) (line : Text) : Prop where
  /-- What stands first. -/
  first : ∃ other, emptyLoad? line = some other ∧ table.isContainer other = false
  /-- The load that is hidden. -/
  load : ∃ symbol ∈ loads line, table.isContainer symbol

/-- A load on a line on which none is found is hidden. -/
theorem hides_of_load?_eq_none {line symbol : Text} (hnone : load? table line = none) (hload : symbol ∈ loads line)
    (hcontainer : table.isContainer symbol) : Hides table line := by
  refine ⟨?_, symbol, hload, hcontainer⟩
  cases hfirst : emptyLoad? line with
  | none =>
    rw [loads, Line.readsFrom_eq_nil hfirst] at hload
    cases hload
  | some other =>
    rw [load?, hfirst, Option.filter_eq_none_iff] at hnone
    exact ⟨other, rfl, by simpa using hnone other rfl⟩

/-- When nothing is found any more, nothing is found on any line. -/
theorem Changes.load?_eq_none (h : Changes table singleton lines ds out) :
    ∀ line ∈ out, load? table line = none := by
  induction h with
  | done h => exact h
  | step _ _ ih => exact ih

/-- **A load is left if and only if it is hidden on a line that has not been changed.** -/
theorem Changes.left_iff (h : Changes table (Container.singletonSymbol stem) lines ds out) :
    Left table out ↔ ∃ line ∈ lines, line ∈ out ∧ Hides table line := by
  -- what is put in loads nothing
  have horigin : ∀ line ∈ out, line ∈ lines ∨ loads line = [] := by
    refine h.forall_mem (fun current d hd _ line hline => .inr ?_) fun line hline => .inl hline
    rcases List.mem_pair.mp hline with rfl | rfl
    · exact hd.loads_castLine stem
    · exact hd.loads_jumpLine
  constructor
  · intro hleft
    obtain ⟨line, hline, symbol, hload, hcontainer⟩ := hleft
    rcases horigin line hline with hmem | hnone
    · exact ⟨line, hmem, hline, hides_of_load?_eq_none (h.load?_eq_none line hline) hload hcontainer⟩
    · rw [hnone] at hload
      cases hload
  · intro hhidden
    obtain ⟨line, -, hline, hhides⟩ := hhidden
    exact ⟨line, hline, hhides.load⟩

/-- How the rounds over a block end. -/
structure Ends (table : AddressTable) (function singleton : Text) (lines : List Text) (ds : List Dereference)
    (out : List Text) : Prop where
  /-- These are rounds over the block. -/
  rounds : Rounds table function singleton lines ds out
  /-- Each round makes the block one line shorter. -/
  shorter : ∀ ds' out', Rounds table function singleton lines ds' out' → ds'.length + out'.length = lines.length
  /-- No other rounds are possible, and none beyond these. -/
  longest : ∀ ds' out', Rounds table function singleton lines ds' out' → ds' <+: ds
  /-- In the end no load is found on any line, and one is left only where it is hidden; or something is missing
  that belongs to a load. -/
  outcome : (all table function singleton lines = .ok (out, ds.map failure) ∧
      (∀ line ∈ out, load? table line = none) ∧
      (Left table out ↔ ∃ line ∈ lines, line ∈ out ∧ Hides table line)) ∨
    ∃ detail, all table function singleton lines = .error (malformed function detail) ∧
      find table function out = .error (malformed function detail)

/-- **The rounds over a block come to an end.**  Whatever names the lines hold, there are not more rounds than
lines.  Then a load turns out to be incomplete, or the block is free of loads but for those that the text of
another load hides. -/
theorem exists_ends (table : AddressTable) (function stem : Text) (lines : List Text) :
    ∃ ds out, Ends table function (Container.singletonSymbol stem) lines ds out := by
  obtain ⟨ds, out, hrounds, houtcome⟩ := exists_rounds table function (Container.singletonSymbol stem) lines
  have hend : ∀ d, find table function out ≠ .ok (some d) := by
    intro d hd
    rcases houtcome with ⟨hnone, -⟩ | ⟨detail, herror, -⟩
    · cases Except.ok.inj (hnone.symm.trans hd)
    · cases herror.symm.trans hd
  refine ⟨ds, out, hrounds, fun ds' out' h => h.length_add, fun ds' out' h => hrounds.isPrefix hend h, ?_⟩
  rcases houtcome with ⟨hnone, hall⟩ | ⟨detail, herror, hall⟩
  · exact .inl ⟨hall, find_eq_ok_none_iff.mp hnone, (hrounds.changes hnone).left_iff⟩
  · exact .inr ⟨detail, hall, herror⟩

/-- A value whose name holds the text of a load of something that is no container type. -/
def hidingValue : Text :=
  "%\"load atomic ptr, ptr getelementptr inbounds (i8, ptr @x, i64 32) unordered\""

/-- A load of this value, with its comparison and its branch. -/
def hiddenLines : List Text :=
  ["  " ++ hidingValue ++ " = load atomic ptr, ptr getelementptr inbounds (i8, ptr @T, i64 32) unordered, align 8",
    "  %c = icmp eq ptr " ++ hidingValue ++ ", null", "  br i1 %c, label %fail, label %ok"]

/-- The name hides the load, which is left as it is. -/
theorem hiddenLoad_left :
    all Container.integerTable "f" (Container.singletonSymbol "f") hiddenLines = .ok (hiddenLines, []) ∧
      Left Container.integerTable hiddenLines := by
  obtain ⟨hnone, hload⟩ : (hiddenLines.all fun line => (load? Container.integerTable line).isNone) ∧
      hiddenLines.any fun line => (loads line).any (Container.integerTable.isContainer ·) := by
    decide +kernel
  constructor
  · refine all_eq_of_find (find_eq_ok_none_iff.mpr fun line hline => ?_) _
    exact Option.isNone_iff_eq_none.mp (List.all_eq_true.mp hnone line hline)
  · obtain ⟨line, hline, hany⟩ := List.any_eq_true.mp hload
    exact ⟨line, hline, List.any_eq_true.mp hany⟩

end Dereference

end Freestanding
