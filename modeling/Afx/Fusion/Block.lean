import Afx.Fusion.Conversion

/-!
# Blocks in a Fusion Document

A Fusion document holds AFX in blocks: a name, directly followed by code
between backticks. A backtick inside the code has a backslash before it. A
block ends at the first backtick without one; if every later backtick has one,
it ends at the last, and if there is none, the backtick opens no block. The
name is the whole run of name characters before the backtick, and the search
goes on behind the end of the block.

Blocks of the name in the settings are replaced by the Fusion of their code,
at the indentation of the line on which the block starts. All else stays.

## Main definitions

* `Block`: A block with the text before it.
* `codeAt?`: The code of a block after its opening backtick.
* `Block.next?`: The first block of a document.
* `blocks`: All blocks of a document, and the text behind them.
* `Settings.convertBlocks`: A document with its blocks replaced.

## Theorems

* `Block.length_next?_lt`: Finding a block leaves less to search.
-/

namespace Afx

namespace Fusion

/-- The characters of a block's name. -/
def isBlockNameChar (c : Char) : Bool :=
  c.isAlphanum || c == '.'

/-- Code up to the first backtick without a backslash before it, and what
    follows it; `protect` says that a backslash stands directly before. -/
def plainEnd? (protect : Bool) (done : List Char) : List Char → Option (List Char × List Char)
  | [] => none
  | c :: rest =>
    if c == '\x60' && !protect then some (done.reverse, rest)
    else plainEnd? (c == '\\') (c :: done) rest

/-- Code up to the last backtick, and what follows it. -/
def lastEnd? (s : List Char) : Option (List Char × List Char) :=
  let notMark (c : Char) : Bool := c != '\x60'
  match s.reverse.dropWhile notMark with
  | [] => none
  | _ :: code => some (code.reverse, (s.reverse.takeWhile notMark).reverse)

/-- The code of a block after its opening backtick, and what follows the block. -/
def codeAt? (s : List Char) : Option (List Char × List Char) :=
  (plainEnd? false [] s).or (lastEnd? s)

/-- Code without the backslashes that protect its backticks. -/
def unprotected (done : List Char) : List Char → List Char
  | [] => done.reverse
  | '\\' :: '\x60' :: rest => unprotected ('\x60' :: done) rest
  | c :: rest => unprotected (c :: done) rest

/-- A block: the text before it, back to the block before, its name and code as
    they are written, and the indentation of the line on which it starts. -/
structure Block where
  before : List Char
  name : List Char
  code : List Char
  margin : List Char
  deriving DecidableEq, Repr

/-- What has been read of a document, last first, the blocks found in it, last
    first, and what is left. -/
structure Search where
  behind : List Char
  found : List Block
  rest : List Char

/-- The leading spaces and tabs of the last line of a text, which is given last
    character first. -/
def lineMargin (behind : List Char) : List Char :=
  (behind.takeWhile (· != '\n')).reverse.takeWhile fun c => c == ' ' || c == '\t'

namespace Block

/-- The block as it is written. -/
def written (b : Block) : List Char :=
  b.name ++ '\x60' :: b.code ++ ['\x60']

/-- The first block of a text: the text before it, its name and code, and what
    follows it. What was read before is given last first, as the text up to the
    current run of name characters and the run itself. -/
def next? (plain run : List Char) :
    List Char → Option (List Char × List Char × List Char × List Char)
  | [] => none
  | c :: rest =>
    if c == '\x60' && !run.isEmpty then
      -- Without a backtick behind it this one opens no block, and no later one does.
      (codeAt? rest).map fun (code, after) => (plain.reverse, run.reverse, code, after)
    else if isBlockNameChar c then next? plain (c :: run) rest
    else next? (c :: run ++ plain) [] rest

end Block

/-- Finds one more block, or stops with all blocks and the text behind them. -/
def Search.turn (s : Search) : Except Empty (Turn Search (List Block × List Char)) :=
  match Block.next? [] [] s.rest with
  | none => .ok (.stop (s.found.reverse, s.rest))
  | some (before, name, code, after) =>
    let start := before.reverse ++ s.behind
    let block : Block := ⟨before, name, code, lineMargin start⟩
    .ok (.next ⟨block.written.reverse ++ start, block :: s.found, after⟩)

theorem length_plainEnd?_lt {protect : Bool} {done s : List Char} {found : List Char × List Char}
    (h : plainEnd? protect done s = some found) : found.2.length < s.length := by
  induction s generalizing protect done with
  | nil => simp [plainEnd?] at h
  | cons c rest ih =>
    simp only [plainEnd?] at h
    split at h
    · simp only [Option.some.injEq] at h; subst h; simp
    · have := ih h
      simp only [List.length_cons]
      omega

theorem length_lastEnd?_lt {s : List Char} {found : List Char × List Char}
    (h : lastEnd? s = some found) : found.2.length < s.length := by
  simp only [lastEnd?] at h
  split at h
  · simp at h
  · rename_i c code hd
    simp only [Option.some.injEq] at h
    subst h
    -- The two parts and the backtick between them make up the source.
    have := congrArg List.length (List.takeWhile_append_dropWhile (l := s.reverse)
      (p := fun c => c != '\x60'))
    rw [hd] at this
    simp only [List.length_append, List.length_cons, List.length_reverse] at *
    omega

theorem length_codeAt?_lt {s : List Char} {found : List Char × List Char}
    (h : codeAt? s = some found) : found.2.length < s.length := by
  simp only [codeAt?, Option.or_eq_some_iff] at h
  rcases h with h | ⟨_, h⟩
  · exact length_plainEnd?_lt h
  · exact length_lastEnd?_lt h

theorem Block.length_next?_lt {plain run s : List Char}
    {found : List Char × List Char × List Char × List Char}
    (h : Block.next? plain run s = some found) : found.2.2.2.length < s.length := by
  induction s generalizing plain run with
  | nil => simp [Block.next?] at h
  | cons c rest ih =>
    simp only [Block.next?] at h
    split at h
    · simp only [Option.map_eq_some_iff] at h
      obtain ⟨code, hc, rfl⟩ := h
      have := length_codeAt?_lt hc
      simp only [List.length_cons]
      omega
    · split at h <;>
      · have := ih h
        simp only [List.length_cons]
        omega

theorem Search.turn_shortens {s next : Search} (h : s.turn = .ok (.next next)) :
    next.rest.length < s.rest.length := by
  simp only [Search.turn] at h
  split at h
  · simp at h
  · rename_i hb
    simp only [Except.ok.injEq, Turn.next.injEq] at h
    subst h
    exact Block.length_next?_lt hb

/-- The loop that finds the blocks of a document. -/
def blockLoop : Loop Search Empty (List Block × List Char) where
  turn := Search.turn
  weight s := s.rest.length
  lowers := Search.turn_shortens

/-- All blocks of a document, and the text behind them. -/
def blocks (source : List Char) : List Block × List Char :=
  match blockLoop.run ⟨[], [], source⟩ with
  | .ok found => found

namespace Settings

/-- Whether a block has the name in the settings. -/
def converts (s : Settings) (b : Block) : Bool :=
  match s.blockName with
  | .text name => name == String.ofList b.name
  | _ => false

/-- What stands in place of a block in the result. -/
def replacement (s : Settings) (b : Block) : Except Failure String :=
  if s.converts b then
    s.convert (.text (String.ofList b.margin)) (String.ofList (unprotected [] b.code))
  else .ok (String.ofList b.written)

/-- The blocks with the text before each replaced, in order. -/
def replaced (s : Settings) : List Block → Except Failure String
  | [] => .ok ""
  | b :: rest => do
    let fusion ← s.replacement b
    return String.ofList b.before ++ fusion ++ (← s.replaced rest)

/-- How many blocks of a document are converted. -/
def blockCount (s : Settings) (source : String) : Nat :=
  (blocks source.toList).1.countP s.converts

/-- A document with the blocks of the name in the settings replaced by their Fusion. -/
def convertBlocks (s : Settings) (source : String) : Except Failure String :=
  let (found, tail) := blocks source.toList
  (s.replaced found).map fun front => front ++ String.ofList tail

end Settings

end Fusion

end Afx
