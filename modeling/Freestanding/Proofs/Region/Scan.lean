import Freestanding.Region
import Mathlib.Data.List.Basic

/-!
# Scanning for the partner of a delimiter

Looking for the partner of a delimiter is a run of a small machine: its state is the mode in which the
next character is read, and the number of delimiters that are open.  What stands between two partners
takes the machine from one open delimiter in code back to the same state, and nothing else does.  So
the text between partners may be exchanged for any other that the machine runs through in the same way,
and pieces that leave every state as it is may be put in and taken out anywhere.

## Main definitions

* `Region.step`, `Region.scan` — the machine.
* `Region.Inert` — texts that leave every state as it is.

## Main results

* `Region.closeIndex?_eq_some_iff`, `Region.enclosed?_eq_some_iff` — **the partner of a delimiter and what
  the two enclose, said by the machine.**
* `Region.inert_of_forall`, `Region.inert_quoted` — bare and quoted names are inert.
-/

namespace Freestanding.Region

variable {opening closing : Char}

/-- The state after a character; none if the character is the partner of the first delimiter. -/
def step (opening closing : Char) (s : Mode × Nat) (c : Char) : Option (Mode × Nat) :=
  if isLive s.1 c && c == opening then some (s.1.next c, s.2 + 1)
  else if isLive s.1 c && c == closing then
    match s.2 with
    | 0 | 1 => none
    | d + 2 => some (s.1.next c, d + 1)
  else some (s.1.next c, s.2)

/-- The state after a text. -/
def scan (opening closing : Char) (s : Mode × Nat) (t : Text) : Option (Mode × Nat) :=
  t.foldlM (step opening closing) s

@[simp] theorem scan_nil (s : Mode × Nat) : scan opening closing s [] = some s := rfl

@[simp] theorem scan_cons (s : Mode × Nat) (c : Char) (t : Text) :
    scan opening closing s (c :: t) = (step opening closing s c).bind (scan opening closing · t) :=
  List.foldlM_cons

@[simp] theorem scan_append (s : Mode × Nat) (t u : Text) :
    scan opening closing s (t ++ u) = (scan opening closing s t).bind (scan opening closing · u) :=
  List.foldlM_append

/-! ### Partners -/

/-- The search stops at the first closing delimiter that is read as code with one delimiter open. -/
theorem closeIndexFrom?_eq_some_iff (hne : opening ≠ closing) (hlive : isLive .code closing) {mode : Mode}
    {depth index i : Nat} {t : Text} :
    closeIndexFrom? opening closing mode depth index t = some i ↔
      ∃ inner rest, t = inner ++ closing :: rest ∧ i = index + inner.length ∧
        scan opening closing (mode, depth) inner = some (.code, 1) := by
  induction t generalizing mode depth index with
  | nil => simp [closeIndexFrom?]
  | cons c t ih =>
    -- the partner is the first character, or it is the partner seen from the next state
    have hsplit : (∃ inner rest, c :: t = inner ++ closing :: rest ∧ i = index + inner.length ∧
          scan opening closing (mode, depth) inner = some (.code, 1)) ↔
        (c = closing ∧ i = index ∧ mode = .code ∧ depth = 1) ∨
        ∃ s, step opening closing (mode, depth) c = some s ∧ ∃ inner rest, t = inner ++ closing :: rest ∧
          i = index + 1 + inner.length ∧ scan opening closing s inner = some (.code, 1) := by
      constructor
      · rintro ⟨inner, rest, he, hi, hscan⟩
        cases inner with
        | nil =>
          obtain ⟨rfl, rfl⟩ := Prod.mk.inj (Option.some.inj hscan)
          exact .inl ⟨(List.cons.inj he).1, hi, rfl, rfl⟩
        | cons d inner =>
          obtain ⟨rfl, ht⟩ := List.cons.inj he
          rw [scan_cons, Option.bind_eq_some_iff] at hscan
          obtain ⟨s, hs, hscan⟩ := hscan
          exact .inr ⟨s, hs, inner, rest, ht, by rw [hi, List.length_cons]; omega, hscan⟩
      · rintro (⟨rfl, rfl, rfl, rfl⟩ | ⟨s, hs, inner, rest, rfl, rfl, hscan⟩)
        · exact ⟨[], t, rfl, rfl, rfl⟩
        · refine ⟨c :: inner, rest, rfl, by rw [List.length_cons]; omega, ?_⟩
          rw [scan_cons, hs]
          exact hscan
    rw [hsplit, closeIndexFrom?.eq_def]
    by_cases ho : (isLive mode c && c == opening) = true
    · have hc : c ≠ closing := by
        rw [Bool.and_eq_true, beq_iff_eq] at ho
        exact ho.2 ▸ hne
      simp [step, ho, hc, ih]
    · by_cases hcl : (isLive mode c && c == closing) = true
      · have hmode : mode = .code ∧ c = closing := by
          simp only [isLive, Bool.and_eq_true, beq_iff_eq] at hcl
          exact ⟨hcl.1.1.1, hcl.2⟩
        obtain ⟨rfl, rfl⟩ := hmode
        match depth with
        | 0 => simp [step, hlive, hne.symm]
        | 1 =>
          simp only [step, hlive, hne.symm, beq_iff_eq, Bool.true_and, if_false, if_true]
          simp [eq_comm]
        | d + 2 => simp [step, hlive, hne.symm, ih]
      · have hc : ¬ (c = closing ∧ i = index ∧ mode = .code ∧ depth = 1) := by
          rintro ⟨rfl, -, rfl, -⟩
          exact hcl (by simp [hlive])
        simp [step, ho, hcl, hc, ih]

/-- The opening delimiter that starts a text is the first one that is open. -/
theorem scan_opening (hopen : isLive .code opening) (t : Text) :
    scan opening closing (.code, 0) (opening :: t) = scan opening closing (.code, 1) t := by
  have hnext : Mode.next .code opening = .code := by
    simp only [isLive, Bool.and_eq_true, bne_iff_ne] at hopen
    simp [Mode.next, hopen.1.2, hopen.2]
  simp [scan_cons, step, hopen, hnext]

/-- **The partner of the delimiter that starts a text**, said by the machine. -/
theorem closeIndex?_eq_some_iff (hne : opening ≠ closing) (hopen : isLive .code opening)
    (hlive : isLive .code closing) {t : Text} {i : Nat} :
    closeIndex? opening closing t = some i ↔ ∃ inner rest,
      t = opening :: (inner ++ closing :: rest) ∧ i = inner.length + 1 ∧
        scan opening closing (.code, 1) inner = some (.code, 1) := by
  rw [closeIndex?]
  split
  · next hhead =>
    rw [closeIndexFrom?_eq_some_iff hne hlive]
    constructor
    · rintro ⟨inner, rest, rfl, rfl, hscan⟩
      cases inner with
      | nil => exact absurd hscan (by simp)
      | cons c inner =>
        obtain rfl : c = opening := Option.some.inj hhead
        exact ⟨inner, rest, rfl, by simp, scan_opening hopen inner ▸ hscan⟩
    · rintro ⟨inner, rest, rfl, rfl, hscan⟩
      exact ⟨opening :: inner, rest, rfl, by simp, (scan_opening hopen inner).trans hscan⟩
  · next hhead =>
    constructor
    · exact fun h => absurd h (by simp)
    · rintro ⟨inner, rest, rfl, -, -⟩
      exact absurd rfl hhead

/-- **What two partners enclose takes the machine back to where it was.** -/
theorem enclosed?_eq_some_iff (hne : opening ≠ closing) (hopen : isLive .code opening)
    (hlive : isLive .code closing) {t inner rest : Text} :
    enclosed? opening closing t = some (inner, rest) ↔
      t = opening :: (inner ++ closing :: rest) ∧
        scan opening closing (.code, 1) inner = some (.code, 1) := by
  have hclose := fun i => closeIndex?_eq_some_iff hne hopen hlive (t := t) (i := i)
  rw [enclosed?, Option.map_eq_some_iff]
  constructor
  · rintro ⟨i, hi, he⟩
    obtain ⟨inner', rest', rfl, rfl, hscan⟩ := (hclose i).mp hi
    obtain ⟨rfl, rfl⟩ : inner' = inner ∧ rest' = rest := by simpa using he
    exact ⟨rfl, hscan⟩
  · rintro ⟨rfl, hscan⟩
    exact ⟨inner.length + 1, (hclose _).mpr ⟨inner, rest, rfl, rfl, hscan⟩, by simp⟩

/-! ### Inert texts -/

/-- The text leaves every state as it is. -/
def Inert (opening closing : Char) (t : Text) : Prop :=
  ∀ s, scan opening closing s t = some s

theorem Inert.append {t u : Text} (ht : Inert opening closing t) (hu : Inert opening closing u) :
    Inert opening closing (t ++ u) := by
  intro s
  rw [scan_append, ht s]
  exact hu s

/-- A character that changes neither the mode nor the depth. -/
def isInert (opening closing c : Char) : Bool :=
  c != opening && c != closing && c != '"' && c != ';' && c != '\n'

theorem inert_of_forall {t : Text} (h : ∀ c ∈ t, isInert opening closing c) : Inert opening closing t := by
  intro s
  induction t with
  | nil => rfl
  | cons c t ih =>
    have hc := h c List.mem_cons_self
    simp only [isInert, Bool.and_eq_true, bne_iff_ne] at hc
    obtain ⟨⟨⟨⟨ho, hcl⟩, hquote⟩, hsemi⟩, hline⟩ := hc
    have hnext : s.1.next c = s.1 := by
      cases s.1 <;> simp [Mode.next, hquote, hsemi, hline]
    have hstep : step opening closing s c = some s := by
      simp [step, ho, hcl, hnext]
    rw [scan_cons, hstep]
    exact ih fun d hd => h d (List.mem_cons_of_mem c hd)

/-- A pair of quotes leaves the mode as it is, whether it opens and closes or closes and opens. -/
theorem inert_quoted (ho : opening ≠ '"') (hc : closing ≠ '"') {t : Text}
    (h : ∀ c ∈ t, isInert opening closing c) : Inert opening closing ('"' :: (t ++ ['"'])) := by
  have hstep : ∀ s : Mode × Nat, step opening closing s '"' = some (s.1.next '"', s.2) := by
    intro s
    simp [step, ho.symm, hc.symm]
  intro s
  rw [scan_cons, hstep, Option.bind_some, scan_append, inert_of_forall h, Option.bind_some, scan_cons, hstep]
  obtain ⟨mode, depth⟩ := s
  cases mode <;> rfl

end Freestanding.Region
