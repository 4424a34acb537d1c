import Freestanding.Proofs.Attempt
import Freestanding.Proofs.Listing.Respelling

/-!
# Files made of lines and definitions

A file that is put together from lines and definitions, each ended by a line feed, is read back as these
pieces: a definition is found where a definition was put, with the same header and body, and the lines
outside all definitions are the ones that were put in as lines.  This needs little of the pieces.  A line
must not look like the start of a definition; a definition must have its opening brace at the end of its
first line, its closing brace must be the partner of that brace, and no line within it may look like the
start of another one.

## Main definitions

* `Definition.Delimited` — a header and a body that can be told apart from what follows.
* `Piece`, `Piece.file` — pieces, and the file made of them.
* `Piece.definitionsFrom` — the definitions among the pieces, with their places.

## Main results

* `Definition.exists_of_mem_placed` — where a line of a text stands.
* `Piece.all_file` — **the definitions that are read from a file are its pieces.**
* `Piece.topLevels_file` — **so are the lines outside them.**
-/

namespace Freestanding

/-! ### Lines and their places -/

namespace Definition

theorem placed_append (place : Nat) (ls ms : List Text) :
    placed place (ls ++ ms) = placed place ls ++ placed (place + (ls.flatMap (· ++ ['\n'])).length) ms := by
  induction ls generalizing place with
  | nil => rfl
  | cons l ls ih =>
    rw [List.cons_append, placed_cons, placed_cons, ih, List.flatMap_cons, List.length_append, List.length_append,
      List.length_singleton, List.cons_append]
    congr 3
    omega

theorem length_lines (t : Text) : (t.lines.flatMap (· ++ ['\n'])).length = t.length + 1 := by
  induction t using Text.lines_induction with
  | last t h => simp [Text.lines_of_notMem h]
  | cons a b ha ih =>
    rw [Text.lines_append, List.flatMap_append, List.length_append, ih, Text.lines_of_notMem ha]
    simp
    omega

/-- A line feed starts the places anew. -/
theorem placed_lines_append (place : Nat) (a b : Text) :
    placed place (a ++ '\n' :: b).lines = placed place a.lines ++ placed (place + a.length + 1) b.lines := by
  rw [Text.lines_append, placed_append, length_lines, Nat.add_assoc]

/-- **Where a line stands in the text.** -/
theorem exists_of_mem_placed {place p : Nat} {t line : Text} (h : (p, line) ∈ placed place t.lines) :
    ∃ before after, t = before ++ (line ++ after) ∧ p = place + before.length ∧ '\n' ∉ line ∧
      (before = [] ∨ before.getLast? = some '\n') ∧ (after = [] ∨ after.head? = some '\n') := by
  induction t using Text.lines_induction generalizing place with
  | last t ht =>
    rw [Text.lines_of_notMem ht] at h
    obtain ⟨rfl, rfl⟩ := Prod.mk.inj (List.mem_singleton.mp h)
    exact ⟨[], [], by simp, rfl, ht, .inl rfl, .inl rfl⟩
  | cons a b ha ih =>
    rw [placed_lines_append, Text.lines_of_notMem ha] at h
    rcases List.mem_append.mp h with h | h
    · obtain ⟨rfl, rfl⟩ := Prod.mk.inj (List.mem_singleton.mp h)
      exact ⟨[], '\n' :: b, rfl, rfl, ha, .inl rfl, .inr rfl⟩
    · obtain ⟨before, after, rfl, rfl, hline, hbefore, hafter⟩ := ih h
      refine ⟨a ++ '\n' :: before, after, by simp, ?_, hline, .inr ?_, hafter⟩
      · rw [List.length_append, List.length_cons]
        omega
      · rcases hbefore with rfl | hbefore
        · simp
        · rw [List.getLast?_append, List.getLast?_cons, hbefore]
          rfl

theorem le_of_mem_placed {place p : Nat} {t line : Text} (h : (p, line) ∈ placed place t.lines) : place ≤ p := by
  obtain ⟨before, -, -, rfl, -⟩ := exists_of_mem_placed h
  omega

/-- A line starts before the end of a text that does not end with a line feed. -/
theorem lt_of_mem_placed {place p : Nat} {t line : Text} {c : Char} (hc : c ≠ '\n')
    (h : (p, line) ∈ placed place (t ++ [c]).lines) : p < place + (t ++ [c]).length := by
  obtain ⟨before, after, he, rfl, -, hbefore, -⟩ := exists_of_mem_placed h
  have hrest : line ++ after ≠ [] := by
    intro hnil
    rw [hnil, List.append_nil] at he
    rcases hbefore with rfl | hbefore
    · exact absurd he (by simp)
    · rw [← he, List.getLast?_concat] at hbefore
      exact hc (Option.some.inj hbefore)
  have hpos := List.length_pos_iff.mpr hrest
  rw [he, List.length_append]
  omega

/-- The text from the start of a line on is a line that starts a definition if the line is one. -/
theorem exists_mem_placed (place : Nat) (a b : Text) :
    ∃ line, (place + a.length + 1, line) ∈ placed place (a ++ '\n' :: b).lines ∧
      isDefineLine line = isDefineLine b := by
  obtain ⟨line, rest, hlines⟩ := List.exists_cons_of_ne_nil (List.splitOn_ne_nil '\n' b)
  have hb : b.lines = line :: rest := hlines
  refine ⟨line, ?_, (isDefineLine_of_lines hb).symm⟩
  rw [placed_lines_append, hb]
  exact List.mem_append_right _ List.mem_cons_self

/-- Behind a character that ends words, nothing matters for whether a line starts a definition. -/
theorem isDefineLine_append_of_getLast? {c : Char} (hc : Text.isWordChar c = false) {t : Text}
    (ht : t.getLast? = some c) (u : Text) : isDefineLine (t ++ u) = isDefineLine t := by
  obtain ⟨front, rfl⟩ := List.getLast?_eq_some_iff.mp ht
  rw [List.append_assoc, List.singleton_append, isDefineLine_append_cons hc, isDefineLine_append_cons hc]

theorem filter_placed_eq_nil (place : Nat) {ls : List Text} (h : ls.any isDefineLine = false) :
    (placed place ls).filter (fun x => isDefineLine x.2) = [] := by
  induction ls generalizing place with
  | nil => rfl
  | cons l ls ih =>
    rw [List.any_cons, Bool.or_eq_false_iff] at h
    rw [placed_cons, List.filter_cons_of_neg (by simp [h.1]), ih _ h.2]

/-! ### Definitions that can be read -/

/-- A definition of the given name whose header and body can be told apart from all that follows. -/
structure Delimited (name header body : Text) : Prop where
  /-- The header is one line, -/
  line : '\n' ∉ header
  /-- which starts a definition -/
  defines : isDefineLine header
  /-- and ends with the opening brace. -/
  brace : header.getLast? = some '\x7b'
  /-- It names the definition. -/
  named : nameIn? header = some name
  /-- Nothing but blanks stands behind the brace in its line. -/
  broken : ∃ blanks rest : Text, body = blanks ++ '\n' :: rest ∧ ∀ c ∈ blanks, Text.isBlank c ∧ c ≠ '\n'
  /-- No line of the body starts a definition. -/
  calm : opens false (body ++ ['\x7d']) = false
  /-- The closing brace is the partner of the opening one. -/
  closed : Region.scan '\x7b' '\x7d' (.code, 1) body = some (.code, 1)

theorem trimEnd_append {t blanks : Text} (ht : ∀ c, t.getLast? = some c → Text.isBlank c = false)
    (hblanks : ∀ c ∈ blanks, Text.isBlank c) : (t ++ blanks).trimEnd = t := by
  rw [Text.trimEnd, Text.dropWhileEnd, List.reverse_append,
    List.dropWhile_append_of_pos fun c hc => hblanks c (List.mem_reverse.mp hc), ← Text.dropWhileEnd]
  exact Text.dropWhileEnd_eq_self ht

/-- A definition is read where its text stands, if its closing brace is the partner of the opening one. -/
theorem read_eq_of_drop {function dump line name header body after : Text} {place : Nat}
    (hheader : line.trimEnd = header) (hbrace : header.getLast? = some '\x7b')
    (hname : nameIn? header = some name) (hclosed : Region.scan '\x7b' '\x7d' (.code, 1) body = some (.code, 1))
    (hdrop : dump.drop place = Listing.functionText header body ++ after) :
    read function dump place line =
      .ok { name, header, body, start := place, stop := place + (Listing.functionText header body).length } := by
  obtain ⟨front, hfront⟩ := List.getLast?_eq_some_iff.mp hbrace
  have hlen : header.length = front.length + 1 := by rw [hfront, List.length_append, List.length_singleton]
  have hrest : dump.drop (place + header.length - 1) = '\x7b' :: (body ++ '\x7d' :: after) := by
    have htext : Listing.functionText header body ++ after = front ++ '\x7b' :: (body ++ '\x7d' :: after) := by
      rw [Listing.functionText, hfront]
      simp
    rw [hlen, Nat.add_sub_assoc (by omega), ← List.drop_drop, hdrop, htext]
    exact List.drop_left
  have henclosed : Region.enclosed? '\x7b' '\x7d' ('\x7b' :: (body ++ '\x7d' :: after)) = some (body, after) :=
    (Region.enclosed?_eq_some_iff (by decide) (by decide) (by decide)).mpr ⟨rfl, hclosed⟩
  have hstop : place + header.length - 1 + body.length + 2 =
      place + (Listing.functionText header body).length := by
    simp only [Listing.functionText, List.length_append]
    change _ = place + (header.length + body.length + 1)
    omega
  unfold read
  simp only [hheader, hbrace, ne_eq, not_true_eq_false, if_false, hrest, henclosed, hname]
  rw [hstop]
  rfl

/-- **A delimited definition is read where it stands.** -/
theorem Delimited.read_eq {name header body : Text} (h : Delimited name header body) (function : Text)
    {before blanks after : Text} (hblanks : ∀ c ∈ blanks, Text.isBlank c) :
    read function (before ++ (Listing.functionText header body ++ after)) before.length (header ++ blanks) =
      .ok { name, header, body, start := before.length,
            stop := before.length + (Listing.functionText header body).length } := by
  have hheader : (header ++ blanks).trimEnd = header := by
    refine trimEnd_append (fun c hc => ?_) hblanks
    rw [h.brace] at hc
    rw [← Option.some.inj hc]
    decide
  exact read_eq_of_drop hheader h.brace h.named h.closed List.drop_left

/-- The first line of a delimited definition starts it, and no other line starts one. -/
theorem Delimited.filter_placed_eq {name header body : Text} (h : Delimited name header body) (place : Nat) :
    ∃ blanks, (∀ c ∈ blanks, Text.isBlank c) ∧
      (placed place (Listing.functionText header body).lines).filter (fun x => isDefineLine x.2) =
        [(place, header ++ blanks)] := by
  obtain ⟨blanks, rest, hbody, hblanks⟩ := h.broken
  refine ⟨blanks, fun c hc => (hblanks c hc).1, ?_⟩
  have htext : Listing.functionText header body = (header ++ blanks) ++ '\n' :: (rest ++ ['\x7d']) := by
    rw [Listing.functionText, hbody]
    simp
  have hfirst : '\n' ∉ header ++ blanks := by
    rw [List.mem_append, not_or]
    exact ⟨h.line, fun hmem => (hblanks _ hmem).2 rfl⟩
  have hdefine : isDefineLine (header ++ blanks) := by
    rw [isDefineLine_append_of_getLast? (by decide +kernel) h.brace, h.defines]
  have hnone : (Text.lines (rest ++ ['\x7d'])).any isDefineLine = false := by
    have hcalm := h.calm
    rw [hbody, List.append_assoc, opens_append fun hmem => (hblanks _ hmem).2 rfl] at hcalm
    have hrest : opens false ('\n' :: (rest ++ ['\x7d'])) = opens true (rest ++ ['\x7d']) := rfl
    rw [List.cons_append, hrest, opens_eq_any] at hcalm
    exact hcalm
  rw [htext, placed_lines_append, Text.lines_of_notMem hfirst, List.filter_append, filter_placed_eq_nil _ hnone]
  simp [hdefine]

/-! ### Definitions that have been read -/

theorem read_eq_ok {function dump line : Text} {place : Nat} {d : Definition}
    (h : read function dump place line = .ok d) :
    line.trimEnd = d.header ∧ d.header.getLast? = some '\x7b' ∧ nameIn? d.header = some d.name ∧
      d.start = place ∧ d.stop = place + d.header.length - 1 + d.body.length + 2 ∧
      ∃ after, Region.enclosed? '\x7b' '\x7d' (dump.drop (place + d.header.length - 1)) = some (d.body, after) := by
  unfold read at h
  dsimp only at h
  split at h
  · exact absurd h (by simp [throw, throwThe, MonadExceptOf.throw, bind, Except.bind])
  · next hbrace =>
    rw [ne_eq, not_not] at hbrace
    split at h
    · exact absurd h (by simp [throw, throwThe, MonadExceptOf.throw])
    · next body after henclosed =>
      split at h
      · exact absurd h (by simp [throw, throwThe, MonadExceptOf.throw])
      · next name hname =>
        obtain rfl := Except.ok.inj h
        exact ⟨rfl, hbrace, hname, rfl, rfl, after, henclosed⟩

/-- A definition starts at a later line of the text. -/
theorem exists_of_opens {fresh : Bool} {t : Text} (h : opens fresh t) :
    fresh ∧ isDefineLine t ∨ ∃ a b, t = a ++ '\n' :: b ∧ isDefineLine b := by
  induction t generalizing fresh with
  | nil => simp at h
  | cons c t ih =>
    rw [opens_cons, Bool.or_eq_true, Bool.and_eq_true] at h
    rcases h with h | h
    · exact .inl h
    · rcases ih h with ⟨hc, ht⟩ | ⟨a, b, rfl, hb⟩
      · exact .inr ⟨[], t, by rw [beq_iff_eq.mp hc]; rfl, ht⟩
      · exact .inr ⟨c :: a, b, rfl, hb⟩

/-- The text of a definition that has been read stands at its place, and behind its opening brace there are
only blanks in the line. -/
theorem exists_of_read {function dump line : Text} {place : Nat} {d : Definition}
    (hplace : (place, line) ∈ placedLines dump) (h : read function dump place line = .ok d) :
    ∃ before after blanks rest, dump = before ++ (Listing.functionText d.header d.body ++ after) ∧
      before.length = place ∧ line = d.header ++ blanks ∧ (∀ c ∈ blanks, Text.isBlank c ∧ c ≠ '\n') ∧
      d.body = blanks ++ '\n' :: rest ∧ '\n' ∉ d.header ∧
      Region.scan '\x7b' '\x7d' (.code, 1) d.body = some (.code, 1) := by
  obtain ⟨hheader, hbrace, -, -, -, after, henclosed⟩ := read_eq_ok h
  obtain ⟨before, behind, hdump, hbefore, hline, -, hbehind⟩ := exists_of_mem_placed hplace
  rw [Nat.zero_add] at hbefore
  obtain ⟨blanks, hsplit, hblanks⟩ := Text.exists_trimEnd_append line
  rw [hheader] at hsplit
  rw [hsplit, List.mem_append, not_or] at hline
  obtain ⟨front, hfront⟩ := List.getLast?_eq_some_iff.mp hbrace
  have hdrop : dump.drop (place + d.header.length - 1) = '\x7b' :: (blanks ++ behind) := by
    have htext : dump = (before ++ front) ++ '\x7b' :: (blanks ++ behind) := by
      rw [hdump, hsplit, hfront]
      simp
    have hlen : place + d.header.length - 1 = (before ++ front).length := by
      rw [hbefore, hfront, List.length_append, List.length_append, List.length_singleton]
      omega
    rw [htext, hlen, List.drop_left]
  rw [hdrop, Region.enclosed?_eq_some_iff (by decide) (by decide) (by decide)] at henclosed
  obtain ⟨htext, hscan⟩ := henclosed
  have hrest := (List.cons.inj htext).2
  -- the body goes on behind the blanks, since neither a blank nor a line feed is the closing brace
  obtain ⟨rest, hbody⟩ : ∃ rest, d.body = blanks ++ '\n' :: rest := by
    rcases List.append_eq_append_iff.mp hrest with ⟨mid, hmid, hend⟩ | ⟨mid, hmid, hend⟩
    · rcases hbehind with rfl | hbehind
      · exact absurd hend (by simp)
      · rw [hend] at hbehind
        cases mid with
        | nil => exact absurd (Option.some.inj hbehind) (by decide)
        | cons c mid =>
          obtain rfl : c = '\n' := Option.some.inj hbehind
          exact ⟨mid, hmid⟩
    · cases mid with
      | nil =>
        rw [List.nil_append] at hend
        rcases hbehind with rfl | hbehind
        · exact absurd hend (by simp)
        · rw [← hend] at hbehind
          exact absurd (Option.some.inj hbehind) (by decide)
      | cons c mid =>
        obtain rfl : '\x7d' = c := (List.cons.inj hend).1
        exact absurd (hblanks '\x7d' (by simp [hmid])) (by decide)
  refine ⟨before, after, blanks, rest, ?_, hbefore.symm, hsplit, ?_, hbody, hline.1, hscan⟩
  · rw [hdump, hsplit, List.append_assoc, hrest, Listing.functionText]
    simp
  · intro c hc
    exact ⟨hblanks c hc, fun he => hline.2 (he ▸ hc)⟩

/-- **A definition in which no other one starts is delimited.** -/
theorem delimited_of_read {function dump line : Text} {place : Nat} {d : Definition}
    (hplace : (place, line) ∈ placedLines dump) (hdefine : isDefineLine line)
    (h : read function dump place line = .ok d)
    (hapart : ∀ x ∈ placedLines dump, isDefineLine x.2 → d.covers x.1 → x.1 = d.start) :
    Delimited d.name d.header d.body := by
  obtain ⟨-, hbrace, hname, hstart, hstop, -⟩ := read_eq_ok h
  obtain ⟨before, after, blanks, rest, hdump, hbefore, hline, hblanks, hbody, hheader, hscan⟩ :=
    exists_of_read hplace h
  refine ⟨hheader, ?_, hbrace, hname, ⟨blanks, rest, hbody, hblanks⟩, ?_, hscan⟩
  · rw [hline, isDefineLine_append_of_getLast? (by decide +kernel) hbrace] at hdefine
    exact hdefine
  · rw [Bool.eq_false_iff]
    intro hopens
    obtain ⟨a, b, he, hb⟩ := (exists_of_opens hopens).resolve_left (by simp)
    -- the line would start a definition in the dump too, inside this one
    have hlast : b.getLast? = some '\x7d' := by
      have hend : (a ++ '\n' :: b).getLast? = some '\x7d' := by rw [← he, List.getLast?_concat]
      cases b with
      | nil => exact absurd hb (by decide)
      | cons c b => rwa [List.getLast?_append_of_ne_nil _ (by simp), List.getLast?_cons_cons] at hend
    have htext : dump = (before ++ (d.header ++ a)) ++ '\n' :: (b ++ after) := by
      rw [hdump, Listing.functionText]
      have he' : d.body ++ '\x7d' :: after = a ++ '\n' :: (b ++ after) := by
        have := congrArg (· ++ after) he
        simpa using this
      simp only [List.append_assoc]
      exact congrArg (fun t => before ++ (d.header ++ t)) he'
    obtain ⟨inner, hinner, hdefines⟩ := exists_mem_placed 0 (before ++ (d.header ++ a)) (b ++ after)
    rw [← htext] at hinner
    rw [isDefineLine_append_of_getLast? (by decide +kernel) hlast, hb] at hdefines
    have hlength := congrArg List.length he
    have hpos : 0 < b.length := List.length_pos_iff.mpr fun hnil => by simp [hnil] at hlast
    simp only [List.length_append, List.length_cons, List.length_nil] at hlength
    have hplaces : d.start < 0 + (before ++ (d.header ++ a)).length + 1 ∧
        0 + (before ++ (d.header ++ a)).length + 1 < d.stop := by
      simp only [List.length_append]
      omega
    have hcovers : d.covers (0 + (before ++ (d.header ++ a)).length + 1) := by
      rw [covers, decide_eq_true hplaces.1.le, decide_eq_true hplaces.2]
      rfl
    exact hplaces.1.ne' (hapart _ hinner hdefines hcovers)

end Definition

/-! ### Pieces -/

open Definition

/-- A piece of a file. -/
inductive Piece
  /-- A line. -/
  | line (t : Text)
  /-- A definition, with its name. -/
  | definition (name header body : Text)
  deriving DecidableEq, Repr

namespace Piece

/-- The text of a piece. -/
def text : Piece → Text
  | line t => t
  | definition _ header body => Listing.functionText header body

/-- The line that a piece is. -/
def line? : Piece → Option Text
  | line t => some t
  | definition _ _ _ => none

/-- Name, header and body of the definition that a piece is. -/
def definition? : Piece → Option (Text × Text × Text)
  | line _ => none
  | definition name header body => some (name, header, body)

/-- The file made of the pieces, each ended by a line feed. -/
def file (pieces : List Piece) : Text :=
  pieces.flatMap fun p => p.text ++ ['\n']

/-- The piece can be told apart from its neighbours. -/
inductive Legible : Piece → Prop
  /-- A line that does not start a definition. -/
  | line {t : Text} (hline : '\n' ∉ t) (hdefine : isDefineLine t = false) : Legible (.line t)
  /-- A delimited definition. -/
  | definition {name header body : Text} (h : Delimited name header body) :
      Legible (.definition name header body)

/-- The definitions among the pieces of a file that starts at a place. -/
def definitionsFrom : (place : Nat) → List Piece → List Definition
  | _, [] => []
  | place, line t :: pieces => definitionsFrom (place + t.length + 1) pieces
  | place, definition name header body :: pieces =>
    let stop := place + (Listing.functionText header body).length
    { name, header, body, start := place, stop } :: definitionsFrom (stop + 1) pieces

variable {pieces : List Piece}

@[simp] theorem file_cons (p : Piece) (pieces : List Piece) :
    file (p :: pieces) = p.text ++ '\n' :: file pieces := by
  rw [file, List.flatMap_cons, List.append_assoc, List.singleton_append]
  rfl

@[simp] theorem file_append (ps qs : List Piece) : file (ps ++ qs) = file ps ++ file qs :=
  List.flatMap_append

/-- The lines that start definitions are read one by one. -/
theorem forall₂_read (function : Text) (h : ∀ p ∈ pieces, Legible p) (before : Text) :
    List.Forall₂ (fun x d => read function (before ++ file pieces) x.1 x.2 = .ok d)
      ((placed before.length (file pieces).lines).filter fun x => isDefineLine x.2)
      (definitionsFrom before.length pieces) := by
  induction pieces generalizing before with
  | nil => exact .nil
  | cons p pieces ih =>
    have hp := h p List.mem_cons_self
    -- the rest of the file stands behind the first piece and its line feed
    have hrest := ih (fun q hq => h q (List.mem_cons_of_mem p hq)) (before ++ (p.text ++ ['\n']))
    have hfile : before ++ (p.text ++ ['\n']) ++ file pieces = before ++ file (p :: pieces) := by
      rw [file_cons]
      simp
    have hlength : (before ++ (p.text ++ ['\n'])).length = before.length + p.text.length + 1 := by
      simp only [List.length_append, List.length_singleton]
      omega
    rw [hfile, hlength] at hrest
    have hsplit := placed_lines_append before.length p.text (file pieces)
    rw [← file_cons] at hsplit
    rw [hsplit, List.filter_append]
    cases hp with
    | @line t hline hdefine =>
      have hfirst : (placed before.length t.lines).filter (fun x => isDefineLine x.2) = [] :=
        filter_placed_eq_nil _ (by simp [Text.lines_of_notMem hline, hdefine])
      rw [text, hfirst]
      exact hrest
    | @definition name header body hdefinition =>
      obtain ⟨blanks, hblanks, hfirst⟩ := hdefinition.filter_placed_eq before.length
      rw [text, hfirst, List.singleton_append]
      refine .cons ?_ hrest
      rw [file_cons]
      exact hdefinition.read_eq function hblanks

/-- **The definitions that are read from a file are its pieces.** -/
theorem all_file (function : Text) (h : ∀ p ∈ pieces, Legible p) :
    all function (file pieces) = .ok (definitionsFrom 0 pieces) :=
  Except.mapM_eq_ok_iff.mpr (forall₂_read function h [])

private theorem le_start_of_mem {place : Nat} {d : Definition} (hd : d ∈ definitionsFrom place pieces) :
    place ≤ d.start := by
  induction pieces generalizing place with
  | nil => cases hd
  | cons p pieces ih =>
    cases p with
    | line t =>
      have := ih hd
      omega
    | definition name header body =>
      rcases List.mem_cons.mp hd with rfl | hd
      · exact le_rfl
      · have := ih hd
        omega

/-- What is kept of the lines outside all definitions is kept of the lines among the pieces. -/
theorem filterMap_outside {β : Type} {f : Text → Option β} (hf : f [] = none) (h : ∀ p ∈ pieces, Legible p)
    (place : Nat) :
    ((placed place (file pieces).lines).filter
      fun x => !(definitionsFrom place pieces).any (·.covers x.1)).filterMap (fun x => f x.2) =
        (pieces.filterMap line?).filterMap f := by
  induction pieces generalizing place with
  | nil => simp [file, Text.lines, definitionsFrom, hf]
  | cons p pieces ih =>
    have hrest := ih fun q hq => h q (List.mem_cons_of_mem p hq)
    have hp := h p List.mem_cons_self
    rw [file_cons, placed_lines_append, List.filter_append, List.filterMap_append]
    cases hp with
    | @line t hline hdefine =>
      -- all definitions stand behind the line
      have hfree : (definitionsFrom (place + t.length + 1) pieces).any (·.covers place) = false := by
        rw [List.any_eq_false]
        intro d hd
        have := le_start_of_mem hd
        simp only [covers, Bool.and_eq_true, decide_eq_true_eq]
        omega
      have hkeep : (placed place [t]).filter
          (fun x => !(definitionsFrom (place + t.length + 1) pieces).any (·.covers x.1)) = [(place, t)] := by
        simp [hfree]
      rw [text, definitionsFrom, hrest, Text.lines_of_notMem hline, hkeep]
      change _ = (t :: pieces.filterMap line?).filterMap f
      cases hft : f t with
      | none => simp [hft]
      | some b => simp [hft]
    | @definition name header body hdefinition =>
      obtain ⟨d, hstart, hstop, hds⟩ : ∃ d : Definition, d.start = place ∧
          d.stop = place + (Listing.functionText header body).length ∧
          definitionsFrom place (definition name header body :: pieces) =
            d :: definitionsFrom (place + (Listing.functionText header body).length + 1) pieces :=
        ⟨_, rfl, rfl, rfl⟩
      -- the lines of the definition are covered by it, and no later line is
      have hinside : ∀ x ∈ placed place (Listing.functionText header body).lines, d.covers x.1 = true := by
        intro x hx
        have hle := le_of_mem_placed hx
        have hlt : x.1 < place + (Listing.functionText header body).length := lt_of_mem_placed (by decide) hx
        rw [covers, hstart, hstop, decide_eq_true hle, decide_eq_true hlt]
        rfl
      have hbehind : ∀ x ∈ placed (place + (Listing.functionText header body).length + 1) (file pieces).lines,
          d.covers x.1 = false := by
        intro x hx
        have hle := le_of_mem_placed hx
        have hlt : ¬ x.1 < d.stop := by omega
        rw [covers, decide_eq_false hlt, Bool.and_false]
      have hnone : (placed place (Listing.functionText header body).lines).filter
          (fun x => !(d :: definitionsFrom (place + (Listing.functionText header body).length + 1) pieces).any
            (·.covers x.1)) = [] :=
        List.filter_eq_nil_iff.mpr fun x hx => by simp [hinside x hx]
      have hsame : (placed (place + (Listing.functionText header body).length + 1) (file pieces).lines).filter
          (fun x => !(d :: definitionsFrom (place + (Listing.functionText header body).length + 1) pieces).any
            (·.covers x.1)) = _ :=
        List.filter_congr fun x hx => by rw [List.any_cons, hbehind x hx, Bool.false_or]
      rw [text, hds, hnone, hsame, hrest]
      rfl

/-- **The lines outside all definitions of a file are its pieces.** -/
theorem topLevels_file (h : ∀ p ∈ pieces, Legible p) :
    Listing.topLevels (file pieces) (definitionsFrom 0 pieces) =
      (pieces.filterMap line?).filterMap TopLevel.ofLine? :=
  filterMap_outside (f := TopLevel.ofLine?) rfl h 0

theorem map_definitionsFrom (place : Nat) (pieces : List Piece) :
    (definitionsFrom place pieces).map (fun d => (d.name, d.header, d.body)) =
      pieces.filterMap definition? := by
  induction pieces generalizing place with
  | nil => rfl
  | cons p pieces ih =>
    cases p with
    | line t => exact ih _
    | definition name header body => exact congrArg (_ :: ·) (ih _)

end Piece

end Freestanding
