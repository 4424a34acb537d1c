import Freestanding.Proofs.Container.Runs
import Freestanding.Proofs.Line.Code

/-!
# Branches and their labels

The branches of a body lead to labels, and a body is closed if each of these is the label of one of its
blocks.  A run over a body takes branches away: for each load the one way that a null value would have
gone, and the branches on lines that go as markers.  It also takes labels away, with the blocks to which
these ways led.  Nobody looks whether another way leads there, too.

## Main definitions

* `Line.targets` — the labels to which a line branches.
* `Container.Closed` — every branch of a body leads to one of its blocks.

## Main results

* `Container.BlockRun.targets_perm` — the branches of a block: where they led and where they lead.
* `Container.BodyRun.exists_block_iff` — the labels that are there after a run.
* `Container.lower_closed_iff` — **when a closed body stays closed.**
* `Container.sharedFailure_not_closed` — a body that does not.
-/

namespace Freestanding

open Idiom

/-! ### Branches of a line -/

namespace Line

/-- The label named at the start of a text. -/
def labelAt? (t : Text) : Option Text :=
  (Text.stripPrefix? t "label ").bind fun t => (Token.read? '%' t).map Prod.fst

/-- The labels to which a line branches: one if it does so in any case, and two if on a condition. -/
def targets (line : Text) : List Text :=
  match Text.stripPrefix? line.trimStart "br " with
  | none => []
  | some t => (readsFrom labelAt? .code t).take 2

private theorem targets_of_begins {line word : Text} (h : Begins word line) (hword : word = "%" ∨ word = "store ") :
    targets line = [] := by
  obtain ⟨u, hu⟩ := h
  rw [targets, hu]
  rcases hword with rfl | rfl <;> rfl

/-- No label is named from within a name. -/
theorem labelAt?_name_append {name rest : Text} (hname : name.all Token.isNameChar)
    (hrest : ∀ c, rest.head? = some c → c = ',') : labelAt? (name ++ rest) = none := by
  rw [labelAt?, Option.bind_eq_none_iff]
  intro u hu
  have heq : name ++ rest = "label " ++ u := Text.stripPrefix?_eq_some_iff.mp hu
  -- the space of the literal would stand in the name or behind the comma
  rcases List.append_eq_append_iff.mp heq with ⟨more, hlit, hmore⟩ | ⟨more, hlit, -⟩
  · cases more with
    | nil =>
      rw [List.append_nil] at hlit
      exact absurd (List.all_eq_true.mp hname ' ' (hlit ▸ by decide)) (by decide)
    | cons c more =>
      obtain rfl := hrest c (by rw [hmore]; rfl)
      have hmem : ',' ∈ ("label " : Text) := by
        rw [hlit]
        simp
      exact absurd hmem (by decide)
  · exact absurd (List.all_eq_true.mp hname ' ' (hlit ▸ by simp)) (by decide)

/-- No label is named within a value. -/
theorem readsFrom_labelAt?_value {token rest : Text} (h : Token.IsValue token)
    (hrest : ∀ c, rest.head? = some c → c = ',') :
    readsFrom labelAt? .code (token ++ rest) = readsFrom labelAt? .code rest := by
  obtain ⟨u, rfl⟩ := head?_of_isValue h
  exact readsFrom_value_append h (fun _ => rfl) fun name _ hname => labelAt?_name_append hname hrest

/-- A label that is named, and those named behind it. -/
theorem readsFrom_labelAt?_label {token rest : Text}
    (h : Token.read? '%' (token ++ rest) = some (token, rest)) :
    readsFrom labelAt? .code ("label " ++ (token ++ rest)) =
      token :: readsFrom labelAt? .code (token ++ rest) := by
  have hlabel : labelAt? ("label " ++ (token ++ rest)) = some token := by
    rw [labelAt?, Text.stripPrefix?_append, Option.bind_some, h]
    rfl
  show (labelAt? ("label " ++ (token ++ rest))).toList ++ readsFrom labelAt? .code (token ++ rest) = _
  rw [hlabel]
  rfl

/-- A jump leads to one label. -/
theorem targets_of_jump {line token : Text} (h : line.trimStart = "br label " ++ token)
    (htoken : Token.IsValue token) : targets line = [token] := by
  have hread : Token.read? '%' (token ++ []) = some (token, []) := htoken.read?_append nofun
  have hnone : readsFrom labelAt? .code (token ++ []) = [] := readsFrom_labelAt?_value htoken nofun
  have hlabels : readsFrom labelAt? .code (("label " : Text) ++ (token ++ [])) = [token] := by
    rw [readsFrom_labelAt?_label hread, hnone]
  rw [List.append_nil] at hlabels
  rw [targets, h]
  show (readsFrom labelAt? .code (("label " : Text) ++ token)).take 2 = [token]
  rw [hlabels]
  rfl

/-- A conditional branch leads to two. -/
theorem targets_of_branch? {line : Text} {b : Branch} (h : branch? line = some b) :
    targets line = [b.yes, b.no] := by
  obtain ⟨hflag, hyes, rest, hno, hline⟩ := exists_of_branch? h
  have hcomma : ∀ u : Text, ∀ c, (", label " ++ u).head? = some c → c = ',' := fun u c hc =>
    (Option.some.inj hc).symm
  have hread : Token.read? '%' (b.yes ++ (", label " ++ (b.no ++ rest))) =
      some (b.yes, ", label " ++ (b.no ++ rest)) :=
    hyes.read?_append fun c hc => by rw [hcomma _ c hc]; decide
  have hlabels : readsFrom labelAt? .code (", label " ++ (b.yes ++ (", label " ++ (b.no ++ rest)))) =
      b.yes :: b.no :: readsFrom labelAt? .code (b.no ++ rest) := by
    show readsFrom labelAt? .code (("label " : Text) ++ (b.yes ++ (", label " ++ (b.no ++ rest)))) = _
    rw [readsFrom_labelAt?_label hread, readsFrom_labelAt?_value hyes (hcomma _)]
    show b.yes :: readsFrom labelAt? .code (("label " : Text) ++ (b.no ++ rest)) = _
    rw [readsFrom_labelAt?_label hno]
  rw [targets, hline]
  show (readsFrom labelAt? .code
    (b.flag ++ ((", label " : Text) ++ (b.yes ++ (", label " ++ (b.no ++ rest)))))).take 2 = _
  rw [readsFrom_labelAt?_value hflag (hcomma _), hlabels]
  rfl

end Line

/-! ### Labels of a body -/

namespace Block

/-- The name of the label that an operand names. -/
def labelName (operand : Text) : Text :=
  let name := (operand.stripPrefix? "%").getD operand
  Text.dropWhileEnd (· == '"') (name.dropWhile (· == '"'))

theorem hasLabel_iff {b : Block} {operand : Text} :
    b.hasLabel operand ↔ b.label = some (labelName operand) :=
  beq_iff_eq

/-- The label line of the block is no marker. -/
def keepsLabel (b : Block) : Bool :=
  b.lines.any fun line => label? line == b.label && !isMarker line

/-- A block has one label line, the one of its label. -/
theorem filterMap_label?_splitFrom {block : Block} {rest : List Text}
    (h : block.lines.reverse.filterMap label? = block.label.toList) :
    ∀ b ∈ splitFrom block rest, b.lines.filterMap label? = b.label.toList := by
  induction rest generalizing block with
  | nil =>
    intro b hb
    rw [List.mem_singleton.mp hb]
    exact h
  | cons line rest ih =>
    cases hlabel : label? line with
    | some label =>
      rw [splitFrom_cons_of_label block hlabel]
      refine List.forall_mem_cons.mpr ⟨h, ih ?_⟩
      show [line].filterMap label? = [label]
      rw [List.filterMap_cons_some hlabel]
      rfl
    | none =>
      rw [splitFrom_cons_of_no_label block hlabel]
      refine ih ?_
      rw [List.reverse_cons, List.filterMap_append, h, List.filterMap_cons_none hlabel]
      exact List.append_nil _

private theorem filterMap_label?_split {body : Text} {b : Block} (hb : b ∈ split body) :
    b.lines.filterMap label? = b.label.toList :=
  filterMap_label?_splitFrom rfl b hb

theorem label_eq_some_iff {body : Text} {b : Block} (hb : b ∈ split body) {name : Text} :
    b.label = some name ↔ ∃ line ∈ b.lines, label? line = some name := by
  rw [← List.mem_filterMap, filterMap_label?_split hb, Option.mem_toList]

/-- A label of a block is the label of a line. -/
theorem exists_hasLabel_iff {body operand : Text} :
    (∃ b ∈ split body, b.hasLabel operand) ↔ ∃ line ∈ body.lines, label? line = some (labelName operand) := by
  rw [← flatMap_lines_split]
  constructor
  · intro ⟨b, hb, hlabel⟩
    obtain ⟨line, hline, hlabel⟩ := (label_eq_some_iff hb).mp (hasLabel_iff.mp hlabel)
    exact ⟨line, List.mem_flatMap.mpr ⟨b, hb, hline⟩, hlabel⟩
  · intro ⟨line, hline, hlabel⟩
    obtain ⟨b, hb, hline⟩ := List.mem_flatMap.mp hline
    exact ⟨b, hb, hasLabel_iff.mpr ((label_eq_some_iff hb).mpr ⟨line, hline, hlabel⟩)⟩

end Block

namespace Container

variable {c : Context} {body new : Text}

/-! ### What a run does to branches and labels -/

/-- The law of a block for something that no instruction has that creates a container. -/
theorem BlockRun.flatMap_perm_of_silent {β : Type} (r : BlockRun c) {f : Text → List β} {g : Dereference → List β}
    (hload : ∀ (lines : List Text) (d : Dereference), d.At c.table lines →
      (d.taken.flatMap f).Perm ((d.put c.singleton).flatMap f ++ g d))
    (hsilent : ∀ line, Line.Begins "%" line ∨ Line.Begins "store " line → f line = []) :
    (r.block.lines.flatMap f).Perm (r.kept.flatMap f ++ (r.loads.flatMap g ++ r.marked.flatMap f)) := by
  have hperm : (r.block.lines.flatMap f ++ r.creations.flatMap fun _ => []).Perm
      (r.kept.flatMap f ++ (r.loads.flatMap g ++ r.marked.flatMap f)) := by
    refine r.flatMap_perm hload fun line operands creation _ hof => ?_
    rw [hsilent line (.inl (Line.begins_of_assigned? hof.result)),
      List.flatMap_eq_nil_iff.mpr fun t ht => hsilent t (hof.begins t ht)]
    exact .refl []
  rwa [List.flatMap_eq_nil_iff.mpr fun _ _ => rfl, List.append_nil] at hperm

/-- **The branches of a block lead where they led**, but for the ways of a null value and those on lines
that go as markers. -/
theorem BlockRun.targets_perm (r : BlockRun c) : (r.block.lines.flatMap Line.targets).Perm
    (r.kept.flatMap Line.targets ++ (r.failures ++ r.marked.flatMap Line.targets)) := by
  have hsilent : ∀ line, Line.Begins "%" line ∨ Line.Begins "store " line → Line.targets line = [] := by
    intro line hline
    rcases hline with hline | hline
    · exact Line.targets_of_begins hline (.inl rfl)
    · exact Line.targets_of_begins hline (.inr rfl)
  have hfailures : r.failures = r.loads.flatMap fun d => [d.failure] := List.map_eq_flatMap
  rw [hfailures]
  refine r.flatMap_perm_of_silent (fun lines d hd => ?_) hsilent
  obtain ⟨hload, hcheck, -, hcast, -⟩ := hd.begins c.singleton
  have htaken : d.taken.flatMap Line.targets = [d.branch.reading.yes, d.branch.reading.no] := by
    simp [Dereference.taken, hsilent _ (.inl hload), hsilent _ (.inl hcheck), Line.targets_of_branch? hd.branch?]
  have hput : (d.put c.singleton).flatMap Line.targets = [d.success] := by
    simp [Dereference.put, hsilent _ (.inl hcast), Line.targets_of_jump hd.trimStart_jumpLine hd.isValue_success]
  rw [htaken, hput, Dereference.success, Dereference.failure, Branch.ifNotNull, Branch.ifNull]
  split
  · exact .swap _ _ _
  · exact .refl _

/-- The line, if it is a label. -/
def labelLine (line : Text) : List Text :=
  if (Block.label? line).isSome then [line] else []

private theorem mem_flatMap_labelLine {line name : Text} (h : Block.label? line = some name) {lines : List Text} :
    line ∈ lines.flatMap labelLine ↔ line ∈ lines := by
  rw [List.mem_flatMap]
  constructor
  · rintro ⟨line', hline', hmem⟩
    rw [labelLine] at hmem
    split at hmem
    · rwa [List.mem_singleton.mp hmem]
    · cases hmem
  · exact fun hline => ⟨line, hline, by rw [labelLine, h]; exact List.mem_singleton.mpr rfl⟩

/-- The labels of a block are kept, but for those on lines that go as markers. -/
theorem BlockRun.labelLine_perm (r : BlockRun c) : (r.block.lines.flatMap labelLine).Perm
    (r.kept.flatMap labelLine ++ r.marked.flatMap labelLine) := by
  have hsilent : ∀ line word, Line.Begins word line → word = "%" ∨ word = "br " ∨ word = "store " →
      labelLine line = [] := by
    intro line word hline hword
    rw [labelLine, Line.label?_of_begins hline hword]
    rfl
  have hperm : (r.block.lines.flatMap labelLine).Perm
      (r.kept.flatMap labelLine ++ ((r.loads.flatMap fun _ => []) ++ r.marked.flatMap labelLine)) := by
    refine r.flatMap_perm_of_silent (fun lines d hd => ?_) fun line hline => ?_
    · obtain ⟨hload, hcheck, hbranch, hcast, hjump⟩ := hd.begins c.singleton
      simp [Dereference.taken, Dereference.put, hsilent _ _ hload (by simp), hsilent _ _ hcheck (by simp),
        hsilent _ _ hbranch (by simp), hsilent _ _ hcast (by simp), hsilent _ _ hjump (by simp)]
    · rcases hline with hline | hline
      · exact hsilent line _ hline (by simp)
      · exact hsilent line _ hline (by simp)
  rwa [List.flatMap_eq_nil_iff.mpr fun _ _ => rfl, List.nil_append] at hperm

/-- Lines with labels are kept unless they are markers. -/
theorem BlockRun.mem_kept_iff (r : BlockRun c) {line name : Text} (h : Block.label? line = some name) :
    line ∈ r.kept ↔ line ∈ r.block.lines ∧ isMarker line = false := by
  have hsplit : line ∈ r.block.lines ↔ line ∈ r.kept ∨ line ∈ r.marked := by
    rw [← mem_flatMap_labelLine h, r.labelLine_perm.mem_iff, List.mem_append, mem_flatMap_labelLine h,
      mem_flatMap_labelLine h]
  rw [hsplit]
  constructor
  · exact fun hkept => ⟨.inl hkept, by simpa using List.of_mem_filter hkept⟩
  · intro ⟨hline, hmarker⟩
    rcases hline with hkept | hmarked
    · exact hkept
    · rw [List.of_mem_filter hmarked] at hmarker
      cases hmarker

/-- Every branch of the body leads to one of its blocks. -/
def Closed (body : Text) : Prop :=
  ∀ t ∈ body.lines.flatMap Line.targets, ∃ b ∈ Block.split body, b.hasLabel t

instance (body : Text) : Decidable (Closed body) :=
  inferInstanceAs (Decidable (∀ _ ∈ _, ∃ _ ∈ _, _))

namespace BodyRun

variable (p : BodyRun c body new)

/-- The blocks that are there after the run, with their labels. -/
def present : List (BlockRun c) :=
  p.blocks.filter fun r => !p.isBlanked r && r.block.keepsLabel

/-- The blocks that are blanked or lose their labels. -/
def gone : List (BlockRun c) :=
  p.blocks.filter fun r => p.isBlanked r || !r.block.keepsLabel

/-- What the run does to the branches of a body. -/
structure Redirects : Prop where
  /-- The branches of a block lead where they led, but for the ways of a null value and those on lines
  that go as markers. -/
  targets : ∀ r ∈ p.blocks, (r.block.lines.flatMap Line.targets).Perm
    (r.kept.flatMap Line.targets ++ (r.failures ++ r.marked.flatMap Line.targets))
  /-- A closed body stays closed if and only if no branch that is left leads to a block that is gone, unless
  another block has the same label. -/
  stays_closed_iff : Closed body → (Closed new ↔ ∀ r ∈ p.staying, ∀ t ∈ r.kept.flatMap Line.targets,
    (∃ r' ∈ p.gone, r'.block.hasLabel t) → ∃ r' ∈ p.present, r'.block.hasLabel t)

private theorem block_mem {r : BlockRun c} (hr : r ∈ p.blocks) : r.block ∈ Block.split body :=
  p.split ▸ List.mem_map_of_mem hr

/-- **The labels that are there after a run.** -/
theorem exists_block_iff (hc : c.Proper) {operand : Text} :
    (∃ b ∈ Block.split new, b.hasLabel operand) ↔ ∃ r ∈ p.present, r.block.hasLabel operand := by
  have hnew : ∀ name : Text, (∃ line ∈ new.lines, Block.label? line = some name) ↔
      ∃ r ∈ p.staying, ∃ line ∈ r.kept, Block.label? line = some name := by
    intro name
    have hlines := p.flatMap_lines hc (f := fun line => (Block.label? line).toList) rfl
    have hmem : name ∈ new.lines.flatMap (fun line => (Block.label? line).toList) ↔
        name ∈ p.staying.flatMap fun r => r.kept.flatMap fun line => (Block.label? line).toList := by
      rw [hlines]
    simpa only [List.mem_flatMap, Option.mem_toList] using hmem
  rw [Block.exists_hasLabel_iff, hnew]
  constructor
  · intro ⟨r, hr, line, hline, hlabel⟩
    obtain ⟨hr, hstays⟩ := List.mem_filter.mp hr
    obtain ⟨hline, hmarker⟩ := (r.mem_kept_iff hlabel).mp hline
    have hname := (Block.label_eq_some_iff (p.block_mem hr)).mpr ⟨line, hline, hlabel⟩
    have hkeeps : r.block.keepsLabel :=
      List.any_eq_true.mpr ⟨line, hline, by rw [hlabel, hname, hmarker]; simp⟩
    exact ⟨r, List.mem_filter.mpr ⟨hr, by rw [hstays, hkeeps]; rfl⟩, Block.hasLabel_iff.mpr hname⟩
  · intro ⟨r, hr, hname⟩
    obtain ⟨hr, hthere⟩ := List.mem_filter.mp hr
    rw [Bool.and_eq_true] at hthere
    obtain ⟨line, hline, hkept⟩ := List.any_eq_true.mp hthere.2
    rw [Bool.and_eq_true, beq_iff_eq, Bool.not_eq_true'] at hkept
    have hlabel := hkept.1.trans (Block.hasLabel_iff.mp hname)
    exact ⟨r, List.mem_filter.mpr ⟨hr, hthere.1⟩, line, (r.mem_kept_iff hlabel).mpr ⟨hline, hkept.2⟩, hlabel⟩

/-- The branches that are left were there before. -/
theorem mem_targets {r : BlockRun c} (hr : r ∈ p.staying) {t : Text} (ht : t ∈ r.kept.flatMap Line.targets) :
    t ∈ body.lines.flatMap Line.targets := by
  rw [p.flatMap_lines_before]
  refine List.mem_flatMap.mpr ⟨r, List.mem_of_mem_filter hr, ?_⟩
  exact r.targets_perm.mem_iff.mpr (List.mem_append_left _ ht)

/-- A body is closed after a run if and only if the branches that are left lead to blocks that are there. -/
theorem closed_new_iff (hc : c.Proper) : Closed new ↔ ∀ r ∈ p.staying, ∀ t ∈ r.kept.flatMap Line.targets,
    ∃ r' ∈ p.present, r'.block.hasLabel t := by
  rw [Closed, p.flatMap_lines hc rfl]
  constructor
  · exact fun h r hr t ht => (p.exists_block_iff hc).mp (h t (List.mem_flatMap.mpr ⟨r, hr, ht⟩))
  · intro h t ht
    obtain ⟨r, hr, ht⟩ := List.mem_flatMap.mp ht
    exact (p.exists_block_iff hc).mpr (h r hr t ht)

/-- A block is there or gone. -/
theorem mem_present_or_gone {r : BlockRun c} (hr : r ∈ p.blocks) : r ∈ p.present ∨ r ∈ p.gone := by
  rw [present, gone, List.mem_filter, List.mem_filter]
  cases p.isBlanked r <;> cases r.block.keepsLabel <;> simp [hr]

theorem redirects (hc : c.Proper) : p.Redirects where
  targets r _ := r.targets_perm
  stays_closed_iff hbody := by
    rw [p.closed_new_iff hc]
    refine forall₂_congr fun r hr => forall₂_congr fun t ht => ⟨fun h _ => h, fun h => ?_⟩
    -- the label has a block, which is there unless it is gone
    obtain ⟨b, hb, hlabel⟩ := hbody t (p.mem_targets hr ht)
    rw [← p.split] at hb
    obtain ⟨r', hr', rfl⟩ := List.mem_map.mp hb
    rcases p.mem_present_or_gone hr' with hthere | hgone
    · exact ⟨r', hthere, hlabel⟩
    · exact h ⟨r', hgone, hlabel⟩

end BodyRun

variable {heap : HeapImage} {function stem : Text} {l l' : Listing} {tally : Tally}

/-- **When a closed body stays closed.**  Branches are only taken away, but a block to which one of them
led is blanked without regard to others that lead there, too. -/
theorem lower_closed_iff (h : (lower heap function stem l).value = (l', .ok tally)) :
    List.Forall₂ (fun body new => ∃ p : BodyRun (contextOf function stem l') body new, p.Redirects)
      l.bodies l'.bodies :=
  (forall₂_bodyRun h).imp fun _ _ hrun =>
    ⟨hrun.some, hrun.some.redirects (proper_contextOf function stem l')⟩

/-- Two loads that branch to one block for a null value, and a branch between them. -/
theorem lower_closed_iff_interleaved :
    (∀ body ∈ interleavedListing.bodies, Closed body) ∧
    ∃ l', (lower integerHeap "f" "f" interleavedListing).value =
        (l', .ok { dereferences := 2, allocations := 1, markers := 1 }) ∧
      (∀ body ∈ l'.bodies, Closed body) ∧
      List.Forall₂ (fun body new => ∃ p : BodyRun (contextOf "f" "f" l') body new, p.Redirects)
        interleavedListing.bodies l'.bodies := by
  have hclosed : (∀ body ∈ interleavedListing.bodies, Closed body) ∧
      ∀ body ∈ [Text.unlines interleavedResult], Closed body := by decide +kernel
  obtain ⟨l', hrun, hbodies⟩ := exists_of_result run_interleaved
  exact ⟨hclosed.1, l', hrun, hbodies ▸ hclosed.2, lower_closed_iff hrun⟩

/-- A load that branches to a block for a null value to which another branch leads, too. -/
def sharedFailureLines : List Text :=
  ["  %x = load atomic ptr, ptr getelementptr inbounds (i8, ptr @T, i64 32) unordered, align 8",
    "  %c = icmp eq ptr %x, null", "  br i1 %c, label %fail, label %ok", "ok:",
    "  br i1 %b, label %fail, label %done", "done:", "  ret ptr %x", "fail:", "  unreachable"]

/-- What becomes of them. -/
def sharedFailureResult : List Text :=
  ["  %x = bitcast ptr @_j_empty_memory_f to ptr", "  br label %ok", "ok:",
    "  br i1 %b, label %fail, label %done", "done:", "  ret ptr %x"]

/-- The listing with these lines. -/
def sharedFailureListing : Listing where
  bodies := [Text.unlines sharedFailureLines]
  addresses := integerTable

/-- The block is blanked, and the other branch leads nowhere. -/
theorem sharedFailure_not_closed : (∀ body ∈ sharedFailureListing.bodies, Closed body) ∧
    ∃ l', (lower integerHeap "f" "f" sharedFailureListing).value = (l', .ok { dereferences := 1 }) ∧
      l'.bodies = [Text.unlines sharedFailureResult] ∧ ¬ ∀ body ∈ l'.bodies, Closed body := by
  obtain ⟨hrun, hclosed, hnot⟩ : result? (lower integerHeap "f" "f" sharedFailureListing).value =
        some ({ dereferences := 1 }, [Text.unlines sharedFailureResult]) ∧
      (∀ body ∈ sharedFailureListing.bodies, Closed body) ∧
      ¬ ∀ body ∈ [Text.unlines sharedFailureResult], Closed body := by
    decide +kernel
  obtain ⟨l', hvalue, hbodies⟩ := exists_of_result hrun
  exact ⟨hclosed, l', hvalue, hbodies, hbodies ▸ hnot⟩

end Container

end Freestanding
