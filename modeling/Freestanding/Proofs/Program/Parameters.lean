import Freestanding.Program.Callee
import Freestanding.Proofs.Line.Values
import Freestanding.Proofs.Region.Depth

/-!
# Parameters of a declaration

Where several routines have the name of a callee, the number of parameters in its declaration decides between
them.  The list of parameters is what two partners enclose, so that whatever stands in quotes does not matter
for where it ends.  But then its commas are counted by a plain scan, which keeps track of brackets and knows
nothing of quotes.  A bracket within a quoted name changes the depth at which all later commas seem to stand,
and a comma within a quoted name seems to be one between parameters.

So every comma is judged twice here: by the code before it, which tells whether it separates parameters, and by
the text before it, which tells whether it is counted.

## Main definitions

* `Region.code`, `Region.dead` — what is read as code in a text, and what is not.
* `Callee.depth` — how many brackets of a text are left open.
* `Callee.beforeCommas` — what stands before each comma.
* `Callee.Balanced`, `Callee.IsParameter`, `Callee.Declares` — texts with balanced brackets, parameters, and
  declarations made of them.
* `Callee.missed`, `Callee.mistaken` — separators that are not counted, and counted commas that separate nothing.
* `Callee.Harmless` — what is quoted has its own brackets balanced and its commas within them.

## Main results

* `Callee.topCommas_eq` — the commas that are counted.
* `Callee.countP_separates` — the commas that separate parameters.
* `Callee.Balanced.enclosed?` — the list of parameters is found.
* `Callee.parameterCount?_exact` — **how many parameters are counted, and which overload is chosen.**
* `Callee.quotedComma_miscounted` — a comma in a quoted name leads to the wrong overload.
-/

namespace Freestanding

/-! ### Code and quoted text -/

namespace Region

/-- The characters that are read as code, in a text that starts in the given mode. -/
def codeFrom : (mode : Mode) → Text → Text
  | _, [] => []
  | mode, c :: t => if isLive mode c then c :: codeFrom (mode.next c) t else codeFrom (mode.next c) t

/-- The characters that are not, in a text that starts in the given mode. -/
def deadFrom : (mode : Mode) → Text → Text
  | _, [] => []
  | mode, c :: t => if isLive mode c then deadFrom (mode.next c) t else c :: deadFrom (mode.next c) t

@[simp] theorem codeFrom_nil (mode : Mode) : codeFrom mode [] = [] := rfl

@[simp] theorem codeFrom_cons (mode : Mode) (c : Char) (t : Text) :
    codeFrom mode (c :: t) =
      if isLive mode c then c :: codeFrom (mode.next c) t else codeFrom (mode.next c) t := rfl

@[simp] theorem deadFrom_nil (mode : Mode) : deadFrom mode [] = [] := rfl

@[simp] theorem deadFrom_cons (mode : Mode) (c : Char) (t : Text) :
    deadFrom mode (c :: t) =
      if isLive mode c then deadFrom (mode.next c) t else c :: deadFrom (mode.next c) t := rfl

/-- What is read as code in a text. -/
def code (t : Text) : Text :=
  codeFrom .code t

/-- What stands in quotes or comments in a text, with the quotes. -/
def dead (t : Text) : Text :=
  deadFrom .code t

@[simp] theorem codeFrom_append (mode : Mode) (t u : Text) :
    codeFrom mode (t ++ u) = codeFrom mode t ++ codeFrom (modeAfter mode t) u := by
  induction t generalizing mode with
  | nil => simp
  | cons c t ih =>
    rw [List.cons_append, codeFrom_cons, codeFrom_cons, modeAfter_cons, ih]
    split <;> rfl

/-- Behind a text that ends as code, code starts anew. -/
theorem code_append {t : Text} (h : modeAfter .code t = .code) (u : Text) : code (t ++ u) = code t ++ code u := by
  rw [code, codeFrom_append, h]
  rfl

theorem code_isPrefix {t u : Text} (h : u <+: t) : code u <+: code t := by
  obtain ⟨v, rfl⟩ := h
  exact ⟨_, (codeFrom_append .code u v).symm⟩

/-- How often a delimiter stands in the code. -/
theorem count_codeFrom {c : Char} (hc : isLive .code c) (mode : Mode) (t : Text) :
    (codeFrom mode t).count c = liveCount c mode t := by
  induction t generalizing mode with
  | nil => rfl
  | cons d t ih =>
    rw [codeFrom_cons, liveCount_cons]
    by_cases hd : mode = .code ∧ d = c
    · obtain ⟨rfl, rfl⟩ := hd
      rw [if_pos hc, if_pos ⟨rfl, rfl⟩, List.count_cons_self, ih, Nat.add_comm]
    · rw [if_neg hd, Nat.zero_add]
      split
      · next hlive =>
        have hne : d ≠ c := by
          rintro rfl
          simp only [isLive, Bool.and_eq_true, beq_iff_eq] at hlive
          exact hd ⟨hlive.1.1, rfl⟩
        rw [List.count_cons_of_ne hne, ih]
      · exact ih _

end Region

namespace Callee

open Region

/-! ### Depths and commas -/

/-- The opening brackets, each with the closing one. -/
def brackets : List (Char × Char) :=
  [('(', ')'), ('\x7b', '\x7d'), ('[', ']'), ('<', '>')]

/-- What a character adds to the depth. -/
def weight (c : Char) : Int :=
  if c = '(' ∨ c = '\x7b' ∨ c = '[' ∨ c = '<' then 1
  else if c = ')' ∨ c = '\x7d' ∨ c = ']' ∨ c = '>' then -1
  else 0

/-- How many brackets of a text are left open, whatever their kind. -/
def depth : Text → Int
  | [] => 0
  | c :: t => weight c + depth t

@[simp] theorem depth_nil : depth [] = 0 := rfl

@[simp] theorem depth_cons (c : Char) (t : Text) : depth (c :: t) = weight c + depth t := rfl

@[simp] theorem depth_append (t u : Text) : depth (t ++ u) = depth t + depth u := by
  induction t with
  | nil => simp
  | cons c t ih => rw [List.cons_append, depth_cons, depth_cons, ih, Int.add_assoc]

/-- What stands before each comma of a text. -/
def beforeCommas : Text → List Text
  | [] => []
  | c :: t => (if c = ',' then [[]] else []) ++ (beforeCommas t).map (c :: ·)

@[simp] theorem beforeCommas_nil : beforeCommas [] = [] := rfl

@[simp] theorem beforeCommas_cons (c : Char) (t : Text) :
    beforeCommas (c :: t) = (if c = ',' then [[]] else []) ++ (beforeCommas t).map (c :: ·) := rfl

theorem mem_beforeCommas_iff {t u : Text} : u ∈ beforeCommas t ↔ ∃ v, t = u ++ ',' :: v := by
  induction t generalizing u with
  | nil => simp
  | cons c t ih =>
    rw [beforeCommas_cons, List.mem_append, List.mem_map]
    constructor
    · intro h
      rcases h with h | ⟨u, hu, rfl⟩
      · split at h
        · next hc =>
          rw [List.mem_singleton] at h
          exact ⟨t, by rw [h, hc]; rfl⟩
        · cases h
      · obtain ⟨v, rfl⟩ := ih.mp hu
        exact ⟨v, rfl⟩
    · intro h
      obtain ⟨v, hv⟩ := h
      cases u with
      | nil =>
        rw [List.nil_append] at hv
        exact .inl (by rw [(List.cons.inj hv).1, if_pos rfl]; exact List.mem_singleton_self _)
      | cons d u =>
        obtain ⟨rfl, ht⟩ := List.cons.inj hv
        exact .inr ⟨u, ih.mpr ⟨v, ht⟩, rfl⟩

@[simp] theorem beforeCommas_append (t u : Text) :
    beforeCommas (t ++ u) = beforeCommas t ++ (beforeCommas u).map (t ++ ·) := by
  induction t with
  | nil => simp
  | cons c t ih =>
    rw [List.cons_append, beforeCommas_cons, beforeCommas_cons, ih, List.map_append, List.map_map,
      List.append_assoc]
    rfl

/-- **The commas that are counted** stand at depth zero, whatever the text before them is. -/
theorem topCommas_eq (start : Int) (t : Text) :
    topCommas start t = (beforeCommas t).countP fun u => start + depth u == 0 := by
  induction t generalizing start with
  | nil => rfl
  | cons c t ih =>
    have hmap : ((beforeCommas t).map (c :: ·)).countP (fun u => start + depth u == 0) =
        topCommas (start + weight c) t := by
      rw [ih, List.countP_map]
      refine List.countP_congr fun u _ => ?_
      rw [Function.comp_apply, depth_cons, Int.add_assoc]
    rw [topCommas, beforeCommas_cons, List.countP_append, hmap]
    by_cases ho : c = '(' ∨ c = '\x7b' ∨ c = '[' ∨ c = '<'
    · have hc : c ≠ ',' := fun he => absurd ho (by rw [he]; decide)
      rw [if_pos ho, if_neg hc, List.countP_nil, Nat.zero_add, weight, if_pos ho]
    · rw [if_neg ho]
      by_cases hcl : c = ')' ∨ c = '\x7d' ∨ c = ']' ∨ c = '>'
      · have hc : c ≠ ',' := fun he => absurd hcl (by rw [he]; decide)
        rw [if_pos hcl, if_neg hc, List.countP_nil, Nat.zero_add, weight, if_neg ho, if_pos hcl]
        rfl
      · have hweight : weight c = 0 := by rw [weight, if_neg ho, if_neg hcl]
        rw [if_neg hcl, hweight, Int.add_zero]
        by_cases hc : c = ','
        · by_cases hstart : start = 0
          · rw [if_pos ⟨hc, hstart⟩, if_pos hc, hstart, Nat.add_comm]
            rfl
          · rw [if_neg fun h => hstart h.2, if_pos hc, List.countP_singleton, depth_nil, Int.add_zero,
              if_neg (by simpa using hstart), Nat.zero_add]
        · rw [if_neg fun h => hc h.1, if_neg hc, List.countP_nil, Nat.zero_add]

/-! ### Parameters -/

/-- Quotes and comments end within the text, and the brackets of each kind are balanced in its code.  A semicolon
outside quotes starts a comment, so that on a single line there is none. -/
structure Balanced (t : Text) : Prop where
  /-- What follows the text is code. -/
  ends : modeAfter .code t = .code
  /-- No bracket is closed before it is opened. -/
  nested : ∀ b ∈ brackets, ∀ u, u <+: code t → u.count b.2 ≤ u.count b.1
  /-- All brackets are closed. -/
  closed : ∀ b ∈ brackets, (code t).count b.1 = (code t).count b.2

/-- A parameter: a balanced text in whose code commas stand only within brackets. -/
structure IsParameter (t : Text) : Prop extends Balanced t where
  /-- Some bracket is open before a comma. -/
  within : ∀ u ∈ beforeCommas (code t), depth u ≠ 0

instance (t : Text) : Decidable (IsParameter t) :=
  decidable_of_iff (modeAfter .code t = .code ∧
      (brackets.all fun b => (code t).inits.all fun u => u.count b.2 ≤ u.count b.1) ∧
      (brackets.all fun b => (code t).count b.1 == (code t).count b.2) ∧
      (beforeCommas (code t)).all fun u => depth u != 0) (by
    simp only [List.all_eq_true, List.mem_inits, decide_eq_true_eq, beq_iff_eq, bne_iff_ne]
    exact ⟨fun h => ⟨⟨h.1, h.2.1, h.2.2.1⟩, h.2.2.2⟩, fun h => ⟨h.ends, h.nested, h.closed, h.within⟩⟩)

/-- Parameters with commas between them.  White space at a comma belongs to the parameter beside it. -/
def listed (parameters : List Text) : Text :=
  [','].intercalate parameters

/-- The line declares the symbol with these parameters: they stand in parentheses behind the first occurrence of
the symbol. -/
structure Declares (line symbol : Text) (parameters : List Text) : Prop where
  /-- The declaration. -/
  text : ∃ before after, line = before ++ (symbol ++ '(' :: (listed parameters ++ ')' :: after)) ∧
    ∀ x y, line = x ++ (symbol ++ y) → before.length ≤ x.length
  /-- The texts between the commas. -/
  parameters : ∀ t ∈ parameters, IsParameter t

/-- The depth, told by counting the brackets of each kind. -/
theorem depth_eq (t : Text) : depth t = (t.count '(' - t.count ')') + (t.count '\x7b' - t.count '\x7d') +
    (t.count '[' - t.count ']') + (t.count '<' - t.count '>') := by
  induction t with
  | nil => rfl
  | cons c t ih =>
    rw [depth_cons, ih, weight]
    simp only [List.count_cons, beq_iff_eq]
    by_cases ho : c = '(' ∨ c = '\x7b' ∨ c = '[' ∨ c = '<'
    · rcases ho with rfl | rfl | rfl | rfl <;> simp <;> omega
    · by_cases hc : c = ')' ∨ c = '\x7d' ∨ c = ']' ∨ c = '>'
      · rcases hc with rfl | rfl | rfl | rfl <;> simp <;> omega
      · rw [not_or, not_or, not_or] at ho hc
        simp [ho, hc]

namespace Balanced

variable {t u : Text}

theorem nil : Balanced [] where
  ends := rfl
  nested := by
    intro b _ u hu
    rw [List.prefix_nil.mp hu]
    exact le_rfl
  closed _ _ := rfl

/-- A comma is balanced. -/
theorem comma : Balanced [','] := by
  have hne : ∀ b ∈ brackets, b.1 ≠ ',' ∧ b.2 ≠ ',' := by simp [brackets]
  refine ⟨rfl, fun b hb u hu => ?_, fun b hb => ?_⟩
  · have hnot : b.2 ∉ u := fun hmem => (hne b hb).2 (List.mem_singleton.mp (hu.subset hmem))
    rw [List.count_eq_zero_of_not_mem hnot]
    exact Nat.zero_le _
  · have hfirst : b.1 ∉ code [','] := fun hmem => (hne b hb).1 (List.mem_singleton.mp hmem)
    have hsecond : b.2 ∉ code [','] := fun hmem => (hne b hb).2 (List.mem_singleton.mp hmem)
    rw [List.count_eq_zero_of_not_mem hfirst, List.count_eq_zero_of_not_mem hsecond]

theorem append (ht : Balanced t) (hu : Balanced u) : Balanced (t ++ u) where
  ends := by rw [modeAfter_append, ht.ends, hu.ends]
  nested := by
    intro b hb v hv
    rw [code_append ht.ends] at hv
    obtain ⟨w, hw⟩ := hv
    rcases List.append_eq_append_iff.mp hw with ⟨z, hz, -⟩ | ⟨z, rfl, hz⟩
    · exact ht.nested b hb v ⟨z, hz.symm⟩
    · have hclosed := ht.closed b hb
      have hnested := hu.nested b hb z ⟨w, hz.symm⟩
      rw [List.count_append, List.count_append]
      omega
  closed := by
    intro b hb
    rw [code_append ht.ends, List.count_append, List.count_append, ht.closed b hb, hu.closed b hb]

/-- Balanced texts with commas between them are balanced. -/
theorem listed {ts : List Text} (h : ∀ t ∈ ts, Balanced t) : Balanced (listed ts) := by
  induction ts with
  | nil => exact nil
  | cons t ts ih =>
    obtain ⟨ht, hts⟩ := List.forall_mem_cons.mp h
    cases ts with
    | nil =>
      rw [Callee.listed, List.intercalate_singleton]
      exact ht
    | cons t' ts =>
      rw [Callee.listed, List.intercalate_cons_cons]
      exact (ht.append comma).append (ih hts)

/-- In the code of a balanced text no more brackets are closed than have been opened. -/
theorem depth_nonneg (h : Balanced t) (hu : u <+: code t) : 0 ≤ depth u := by
  rw [depth_eq]
  have hround : u.count ')' ≤ u.count '(' := h.nested ('(', ')') (by decide) u hu
  have hcurly : u.count '\x7d' ≤ u.count '\x7b' := h.nested ('\x7b', '\x7d') (by decide) u hu
  have hsquare : u.count ']' ≤ u.count '[' := h.nested ('[', ']') (by decide) u hu
  have hangle : u.count '>' ≤ u.count '<' := h.nested ('<', '>') (by decide) u hu
  omega

theorem depth_code (h : Balanced t) : depth (code t) = 0 := by
  rw [depth_eq]
  have hround : (code t).count '(' = (code t).count ')' := h.closed ('(', ')') (by decide)
  have hcurly : (code t).count '\x7b' = (code t).count '\x7d' := h.closed ('\x7b', '\x7d') (by decide)
  have hsquare : (code t).count '[' = (code t).count ']' := h.closed ('[', ']') (by decide)
  have hangle : (code t).count '<' = (code t).count '>' := h.closed ('<', '>') (by decide)
  omega

/-- **A balanced text in parentheses is found**, whatever stands in its quotes. -/
theorem enclosed? (h : Balanced t) (after : Text) :
    Region.enclosed? '(' ')' ('(' :: (t ++ ')' :: after)) = some (t, after) := by
  refine (enclosed?_eq_some_iff (by decide) (by decide) (by decide)).mpr ⟨rfl, ?_⟩
  refine (scan_eq_some_iff (by decide) (by decide) (by decide) Nat.one_pos).mpr ⟨h.ends, ?_, fun u hu => ?_⟩
  · have hclosed : (code t).count '(' = (code t).count ')' := h.closed ('(', ')') (by decide)
    rw [← count_codeFrom (by decide), ← count_codeFrom (by decide)]
    exact congrArg (1 + ·) hclosed.symm
  · have hnested : (code u).count ')' ≤ (code u).count '(' :=
      h.nested ('(', ')') (by decide) (code u) (code_isPrefix hu)
    rw [← count_codeFrom (by decide), ← count_codeFrom (by decide), Nat.add_comm]
    exact Nat.lt_succ_of_le hnested

end Balanced

/-! ### Commas judged twice -/

/-- A comma behind this text separates parameters: it is code, and in the code before it no bracket is open. -/
def separates (before : Text) : Bool :=
  modeAfter .code before == .code && depth (code before) == 0

/-- A comma behind this text is counted: no bracket is open in the text. -/
def isCounted (before : Text) : Bool :=
  depth before == 0

/-- The number of separators that are not counted. -/
def missed (t : Text) : Nat :=
  (beforeCommas t).countP fun u => separates u && !isCounted u

/-- The number of commas that are counted and separate nothing. -/
def mistaken (t : Text) : Nat :=
  (beforeCommas t).countP fun u => isCounted u && !separates u

theorem separates_iff {u : Text} : separates u ↔ modeAfter .code u = .code ∧ depth (code u) = 0 := by
  rw [separates, Bool.and_eq_true, beq_iff_eq, beq_iff_eq]

/-- No comma within a parameter separates. -/
theorem IsParameter.countP_separates {p : Text} (h : IsParameter p) : (beforeCommas p).countP separates = 0 := by
  rw [List.countP_eq_zero]
  intro u hu hsep
  obtain ⟨v, rfl⟩ := mem_beforeCommas_iff.mp hu
  obtain ⟨hmode, hdepth⟩ := separates_iff.mp hsep
  refine h.within (code u) (mem_beforeCommas_iff.mpr ⟨code v, ?_⟩) hdepth
  rw [code_append hmode]
  rfl

/-- Behind a parameter and a comma, commas separate as they do at the start. -/
theorem Balanced.separates_append {p : Text} (h : Balanced p) (u : Text) :
    separates (p ++ ',' :: u) = separates u := by
  have happ : p ++ ',' :: u = (p ++ [',']) ++ u := by rw [List.append_assoc]; rfl
  have hbalanced := h.append .comma
  rw [separates, separates, happ, modeAfter_append, hbalanced.ends, code_append hbalanced.ends, depth_append,
    hbalanced.depth_code, Int.zero_add]

/-- **The commas that separate parameters** are one fewer than the parameters. -/
theorem countP_separates {ps : List Text} (hne : ps ≠ []) (h : ∀ p ∈ ps, IsParameter p) :
    (beforeCommas (listed ps)).countP separates + 1 = ps.length := by
  induction ps with
  | nil => exact absurd rfl hne
  | cons p ps ih =>
    obtain ⟨hp, hps⟩ := List.forall_mem_cons.mp h
    cases ps with
    | nil =>
      rw [listed, List.intercalate_singleton, hp.countP_separates]
      rfl
    | cons q ps =>
      have hlist : listed (p :: q :: ps) = p ++ ',' :: listed (q :: ps) := by
        rw [listed, List.intercalate_cons_cons, List.append_assoc]
        rfl
      have hself : separates (p ++ []) := by
        rw [List.append_nil]
        exact separates_iff.mpr ⟨hp.ends, hp.depth_code⟩
      have hlater : ((beforeCommas (listed (q :: ps))).map fun u => p ++ ',' :: u).countP separates =
          (beforeCommas (listed (q :: ps))).countP separates := by
        rw [List.countP_map]
        exact List.countP_congr fun u _ => by rw [Function.comp_apply, hp.separates_append]
      rw [hlist, beforeCommas_append, beforeCommas_cons, if_pos rfl, List.map_append, List.map_map,
        List.countP_append, List.countP_append, hp.countP_separates, List.map_singleton, List.countP_singleton, if_pos hself]
      rw [List.length_cons, ← ih (List.cons_ne_nil _ _) hps, ← hlater]
      simp only [Function.comp_def]
      omega

/-- What is counted and what should be differ by the separators that are missed and the commas that are
mistaken for some. -/
theorem countP_isCounted_add (t : Text) : (beforeCommas t).countP isCounted + missed t =
    (beforeCommas t).countP separates + mistaken t := by
  rw [missed, mistaken]
  induction beforeCommas t with
  | nil => rfl
  | cons u us ih =>
    simp only [List.countP_cons]
    cases isCounted u <;> cases separates u <;> simp <;> omega

/-! ### Harmless quotes -/

/-- What stands in quotes does not disturb: its brackets are balanced by themselves, and commas in it stand within
them. -/
structure Harmless (t : Text) : Prop where
  /-- No bracket is closed before it is opened. -/
  nested : ∀ u, u <+: t → 0 ≤ depth (dead u)
  /-- Brackets are closed where the quotes end. -/
  closed : ∀ u, u <+: t → modeAfter .code u = .code → depth (dead u) = 0
  /-- Some bracket is open before a comma that is no code. -/
  within : ∀ u ∈ beforeCommas t, modeAfter .code u ≠ .code → 0 < depth (dead u)

instance (t : Text) : Decidable (Harmless t) :=
  decidable_of_iff ((t.inits.all fun u => 0 ≤ depth (dead u)) ∧
      (t.inits.all fun u => modeAfter .code u != .code || depth (dead u) == 0) ∧
      (beforeCommas t).all fun u => modeAfter .code u == .code || 0 < depth (dead u)) (by
    simp only [List.all_eq_true, List.mem_inits, decide_eq_true_eq, Bool.or_eq_true, beq_iff_eq, bne_iff_ne,
      or_iff_not_imp_left, ne_eq, not_not]
    exact ⟨fun h => ⟨h.1, h.2.1, h.2.2⟩, fun h => ⟨h.nested, h.closed, h.within⟩⟩)

/-- The depth of a text is that of its code and that of the rest. -/
theorem depth_eq_add (t : Text) : depth t = depth (code t) + depth (dead t) := by
  have hfrom : ∀ mode, depth t = depth (codeFrom mode t) + depth (deadFrom mode t) := by
    induction t with
    | nil => simp
    | cons c t ih =>
      intro mode
      rw [depth_cons, ih (mode.next c), codeFrom_cons, deadFrom_cons]
      split
      · rw [depth_cons, Int.add_assoc]
      · rw [depth_cons]
        omega
  exact hfrom .code

/-- With harmless quotes the two judgements agree. -/
theorem Harmless.isCounted_eq {t u : Text} (h : Harmless t) (ht : Balanced t) (hu : u ∈ beforeCommas t) :
    isCounted u = separates u := by
  obtain ⟨v, hv⟩ := mem_beforeCommas_iff.mp hu
  have hpart : u <+: t := ⟨_, hv.symm⟩
  have hcode := ht.depth_nonneg (code_isPrefix hpart)
  have hdead := h.nested u hpart
  rw [Bool.eq_iff_iff, separates_iff, isCounted, beq_iff_eq, depth_eq_add]
  constructor
  · intro hzero
    refine ⟨?_, by omega⟩
    by_contra hmode
    have hopen := h.within u hu hmode
    omega
  · intro hsep
    rw [hsep.2, h.closed u hpart hsep.1]
    rfl

/-! ### White space -/

private theorem beforeCommas_of_notMem {t : Text} (h : ',' ∉ t) : beforeCommas t = [] := by
  rw [List.eq_nil_iff_forall_not_mem]
  intro u hu
  obtain ⟨v, rfl⟩ := mem_beforeCommas_iff.mp hu
  exact h (by simp)

private theorem weight_of_isBlank {c : Char} (h : Text.isBlank c) : weight c = 0 := by
  have hne : ∀ d, Text.isBlank d = false → c ≠ d := fun d hd => Text.ne_of_isBlank h hd
  rw [weight, if_neg, if_neg]
  · simp only [not_or]
    exact ⟨hne _ (by decide), hne _ (by decide), hne _ (by decide), hne _ (by decide)⟩
  · simp only [not_or]
    exact ⟨hne _ (by decide), hne _ (by decide), hne _ (by decide), hne _ (by decide)⟩

private theorem depth_blanks {blanks : Text} (h : ∀ c ∈ blanks, Text.isBlank c) : depth blanks = 0 := by
  induction blanks with
  | nil => rfl
  | cons c blanks ih =>
    obtain ⟨hc, h⟩ := List.forall_mem_cons.mp h
    rw [depth_cons, weight_of_isBlank hc, ih h]
    rfl

/-- White space around a text does not change what is counted in it. -/
theorem topCommas_blanks {blanks blanks' : Text} (h : ∀ c ∈ blanks, Text.isBlank c)
    (h' : ∀ c ∈ blanks', Text.isBlank c) (start : Int) (t : Text) :
    topCommas start (blanks ++ (t ++ blanks')) = topCommas start t := by
  have hcomma : ∀ {s : Text}, (∀ c ∈ s, Text.isBlank c) → beforeCommas s = [] := fun hs =>
    beforeCommas_of_notMem fun hmem => absurd (hs _ hmem) (by decide)
  rw [topCommas_eq, topCommas_eq, beforeCommas_append, hcomma h, List.nil_append, beforeCommas_append, hcomma h',
    List.map_nil, List.append_nil, List.countP_map]
  refine List.countP_congr fun u _ => ?_
  rw [Function.comp_apply, depth_append, depth_blanks h, Int.zero_add]

private theorem topCommas_trim (start : Int) (t : Text) : topCommas start t.trim = topCommas start t := by
  obtain ⟨blanks, hend, hblanks⟩ := Text.exists_trimEnd_append t.trimStart
  have hstart : t = t.takeWhile Text.isBlank ++ (t.trim ++ blanks) := by
    rw [Text.trim, ← hend]
    exact List.takeWhile_append_dropWhile.symm
  conv_rhs => rw [hstart]
  rw [topCommas_blanks (fun c hc => List.mem_takeWhile_imp hc) hblanks]

private theorem countParameters_of_blank {t : Text} (h : t.trim = []) : countParameters t = 0 := by
  rw [countParameters, h]

private theorem countParameters_eq {t : Text} (h : t.trim ≠ []) :
    countParameters t = (beforeCommas t).countP isCounted + 1 := by
  have hcount : countParameters t = topCommas 0 t.trim + 1 := by
    rw [countParameters]
    split
    · next hnil => exact absurd hnil h
    · rfl
  rw [hcount, topCommas_trim, topCommas_eq]
  refine congrArg (· + 1) (List.countP_congr fun u _ => ?_)
  rw [Int.zero_add, isCounted]

/-! ### Declarations -/

variable {line symbol : Text} {ps : List Text}

/-- The first occurrence of the symbol is the one that is found. -/
theorem declares_iff : Declares line symbol ps ↔ (∀ p ∈ ps, IsParameter p) ∧
    ∃ before after, Text.cutAt? symbol line = some (before, '(' :: (listed ps ++ ')' :: after)) := by
  constructor
  · intro h
    obtain ⟨⟨before, after, hline, hfirst⟩, hps⟩ := h
    refine ⟨hps, before, after, Text.cutAt?_eq_some_iff.mpr ⟨hline, fun x y he hy => ?_⟩⟩
    rw [Bool.eq_false_iff]
    intro hstarts
    obtain ⟨z, hz⟩ := Text.startsWith_iff.mp hstarts
    have hle := hfirst x z (by rw [hline, he, List.append_assoc, hz])
    have hpos := List.length_pos_iff.mpr hy
    rw [he, List.length_append] at hle
    omega
  · intro h
    obtain ⟨hps, before, after, hcut⟩ := h
    obtain ⟨hline, hfirst⟩ := Text.cutAt?_eq_some_iff.mp hcut
    refine ⟨⟨before, after, hline, fun x y hxy => ?_⟩, hps⟩
    rcases List.append_eq_append_iff.mp (hline.symm.trans hxy) with ⟨z, hz, -⟩ | ⟨z, hz, hrest⟩
    · rw [hz, List.length_append]
      exact Nat.le_add_right _ _
    · -- an earlier occurrence would have been found
      by_contra hlt
      have hne : z ≠ [] := by
        intro hnil
        rw [hz, hnil, List.append_nil] at hlt
        exact hlt le_rfl
      have hstarts := hfirst x z hz hne
      rw [← hrest, Bool.eq_false_iff] at hstarts
      exact hstarts (Text.startsWith_iff.mpr ⟨y, rfl⟩)

/-- The whole list of parameters is found. -/
theorem Declares.parameterCount? (h : Declares line symbol ps) :
    parameterCount? line symbol = some (countParameters (listed ps)) := by
  obtain ⟨hps, before, after, hcut⟩ := declares_iff.mp h
  have hlist : Balanced (listed ps) := .listed fun p hp => (hps p hp).toBalanced
  rw [Callee.parameterCount?, hcut, Option.bind_eq_bind, Option.bind_some]
  dsimp only
  rw [hlist.enclosed?]
  rfl

/-- Among several candidates the one is chosen that alone has as many arguments as were counted. -/
theorem resolve?_eq_some_iff {routines : List Routine} {name : CompiledName} {count : Nat} {output : Text}
    (hname : CompiledName.parse? symbol = some name) (hcount : parameterCount? line symbol = some count)
    (hmany : 1 < (routines.filter (·.name == name.stem)).length) :
    resolve? routines symbol line = some output ↔
      ∃ r, (routines.filter (·.name == name.stem)).filter (·.arguments.length == count) = [r] ∧
        r.outputName = output := by
  rw [resolve?, hname, Option.bind_eq_bind, Option.bind_some]
  split
  · next hnil => rw [hnil] at hmany; cases hmany
  · next r hone => rw [hone] at hmany; exact absurd hmany (by simp)
  · rw [hcount, Option.bind_eq_bind, Option.bind_some]
    split
    · next r hr => rw [hr]; simp
    · next hnot =>
      refine iff_of_false (fun h => by cases h) fun h => ?_
      obtain ⟨r, hr, -⟩ := h
      exact hnot r hr

/-- What is counted in a declaration, and what follows from it. -/
structure Counted (line symbol : Text) (ps : List Text) (count : Nat) : Prop where
  /-- The number of parameters that is found. -/
  found : parameterCount? line symbol = some count
  /-- White space is no parameter. -/
  blank : (listed ps).trim = [] → count = 0
  /-- The number is short of the separators that are missed, and exceeds by the commas that are mistaken. -/
  differs : (listed ps).trim ≠ [] → count + missed (listed ps) = ps.length + mistaken (listed ps)
  /-- It is right if what is quoted is harmless. -/
  harmless : (listed ps).trim ≠ [] → Harmless (listed ps) → count = ps.length
  /-- Among several overloads the one is chosen that alone has as many arguments. -/
  chosen : ∀ (routines : List Routine) (name : CompiledName) (output : Text),
    CompiledName.parse? symbol = some name → 1 < (routines.filter (·.name == name.stem)).length →
    (resolve? routines symbol line = some output ↔
      ∃ r, (routines.filter (·.name == name.stem)).filter (·.arguments.length == count) = [r] ∧
        r.outputName = output)

/-- **How many parameters are counted in a declaration.**  Quotes do not matter for where the list ends, but what
stands in them is counted like code, and decides about the overload that is chosen. -/
theorem parameterCount?_exact (h : Declares line symbol ps) : ∃ count, Counted line symbol ps count := by
  have hlist : Balanced (listed ps) := .listed fun p hp => (h.parameters p hp).toBalanced
  have hne : (listed ps).trim ≠ [] → ps ≠ [] := by
    intro hsolid hnil
    rw [hnil] at hsolid
    exact hsolid rfl
  have hdiffers : (listed ps).trim ≠ [] →
      countParameters (listed ps) + missed (listed ps) = ps.length + mistaken (listed ps) := by
    intro hsolid
    have hadd := countP_isCounted_add (listed ps)
    have hseparates := countP_separates (hne hsolid) h.parameters
    rw [countParameters_eq hsolid]
    omega
  refine ⟨_, h.parameterCount?, countParameters_of_blank, hdiffers, fun hsolid hharmless => ?_,
    fun routines name output hname hmany => resolve?_eq_some_iff hname h.parameterCount? hmany⟩
  have hagree := List.countP_congr fun u hu => Bool.eq_iff_iff.mp (hharmless.isCounted_eq hlist hu)
  rw [countParameters_eq hsolid, hagree, countP_separates (hne hsolid) h.parameters]

/-- Two routines with the same name. -/
def overloads : List Routine :=
  [{ handle := ⟨1⟩, name := "g", mangled := "Main_g", arguments := ["A"], scope := ["Main"], isEntry := false,
      overload := 0 },
    { handle := ⟨2⟩, name := "g", mangled := "Main_g_1", arguments := ["A", "B"], scope := ["Main"],
      isEntry := false, overload := 1 }]

/-- A declaration with commas within brackets and within a quoted name. -/
def nestedLine : Text :=
  "declare i64 @julia_g_7(\x7b i64, ptr \x7d %0, %\"Tuple\x7bInt64, Int64\x7d\" %1) #0"

/-- Its parameters. -/
def nestedParameters : List Text :=
  ["\x7b i64, ptr \x7d %0", " %\"Tuple\x7bInt64, Int64\x7d\" %1"]

/-- The two parameters are counted, and the overload with two arguments is chosen. -/
theorem parameterCount?_exact_nestedLine : Declares nestedLine "@julia_g_7" nestedParameters ∧
    parameterCount? nestedLine "@julia_g_7" = some 2 ∧
    resolve? overloads "@julia_g_7" nestedLine = some "Main_g_1" := by
  have hdeclares : Declares nestedLine "@julia_g_7" nestedParameters :=
    declares_iff.mpr ⟨by decide +kernel, "declare i64 ", " #0", by decide +kernel⟩
  obtain ⟨count, h⟩ := parameterCount?_exact hdeclares
  obtain rfl : count = 2 := h.harmless (by decide +kernel) (by decide +kernel)
  refine ⟨hdeclares, h.found, (h.chosen overloads ⟨"g", 7⟩ _ (by decide +kernel) (by decide +kernel)).mpr ?_⟩
  exact ⟨_, rfl, rfl⟩

/-- A declaration with a comma in a quoted name. -/
def quotedCommaLine : Text :=
  "declare i64 @julia_g_7(%\"A,B\")"

/-- Its only parameter is counted twice, and the overload with two arguments is chosen. -/
theorem quotedComma_miscounted : Declares quotedCommaLine "@julia_g_7" ["%\"A,B\""] ∧
    parameterCount? quotedCommaLine "@julia_g_7" = some 2 ∧
    resolve? overloads "@julia_g_7" quotedCommaLine = some "Main_g_1" ∧
    ∀ r ∈ overloads, r.outputName = "Main_g_1" → r.arguments.length = 2 := by
  refine ⟨declares_iff.mpr ⟨by decide +kernel, "declare i64 ", [], by decide +kernel⟩, ?_⟩
  decide +kernel

end Callee

end Freestanding
