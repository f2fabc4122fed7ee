import Mathlib.Data.List.Chain
import Afx.Fusion.Block
import Afx.Proofs.ValueGrammar

/-!
# Blocks by Their Form

The blocks of a document are found by a walk that carries the run of name
characters it is in. Here they are described by the form of the document. A
block opens at a backtick directly behind a run of name characters, and the name
is the whole run. It closes at the first backtick that no backslash stands
directly before. If there is none, it closes at the last backtick, whose
backslash is part of the code then. Behind the last block there is no backtick
that both follows a name character and has another one behind it.

`Scanned` puts this together, and `scanned_iff` says that the walk finds exactly
these blocks, so there is one way to scan a document. Both what is around blocks
and the line that a block stands on are parts of the document as it is written,
and the margin of a block is that of its line even if the line starts inside of
an earlier block.

Code can be put into a block and comes out again if its backticks are protected,
unless it ends in a backslash. Then converting a document is converting the codes
in it, each at the margin of its line.

## Main definitions

* `Opens`, `Closes`, `NoBlock`: Where blocks start and end, and where there are none.
* `indentAt`: The margin of the line at a position.
* `Scanned`: The blocks of a document and the text behind them.
* `Unescapes`: Code as it is written in a block, and as it is meant.
* `Settings.Stands`: What stands in place of a block.
* `protectedCode`, `embedded`: Codes as the blocks of a document.

## Theorems

* `exists_scanned`: Every document can be scanned.
* `scanned_iff`: The blocks that are found are those of the scan.
* `unescapes_iff`: The code that is meant.
* `convertBlocks_of_scanned`: A document is converted block by block.
* `convertBlocks_embedded`: Converting codes in a document is converting each of them.
-/

namespace Afx

namespace Fusion

open Markup

/-! ## The form of a block -/

/-- A text and the name that opens the first block behind it: no backtick in the text
    opens a block, and the name is a whole run of name characters. -/
structure Opens (before name : List Char) : Prop where
  plain : before.IsChain fun c d => d = '\x60' → isBlockNameChar c = false
  whole : ∀ c ∈ before.getLast?, isBlockNameChar c = false
  named : ∀ c ∈ name, isBlockNameChar c = true
  nonempty : name ≠ []

/-- The code of a block behind its opening backtick, and what follows its closing one.
    All backticks in the code have a backslash directly before them. The closing one
    has none, or else it is the last. -/
structure Closes (code after : List Char) : Prop where
  guarded : ('\x60' :: code).IsChain fun c d => d = '\x60' → c = '\\'
  ends : code.getLast? ≠ some '\\' ∨ '\x60' ∉ after

/-- A text without blocks: a backtick behind a name character is the last one. -/
def NoBlock (s : List Char) : Prop :=
  ∀ u c v, s = u ++ c :: '\x60' :: v → isBlockNameChar c = true → '\x60' ∉ v

/-- The leading spaces and tabs of the line at a position of a source. -/
def indentAt (source : List Char) (position : Nat) : List Char :=
  (source.drop (Text.lineStart (source.take position))).takeWhile isMarginChar

/-- The blocks of a document and the text behind them, where `front` comes before what
    is scanned. -/
inductive Scanned : (front rest : List Char) → List Block → (tail : List Char) → Prop where
  | done {front rest : List Char} (h : NoBlock rest) : Scanned front rest [] rest
  | block {front after tail : List Char} {b : Block} {others : List Block}
      (hopens : Opens b.before b.name) (hcloses : Closes b.code after)
      (hmargin : b.margin =
        indentAt (front ++ b.before ++ b.written ++ after) (front ++ b.before).length)
      (h : Scanned (front ++ b.before ++ b.written) after others tail) :
      Scanned front (b.before ++ b.written ++ after) (b :: others) tail

/-! ## Where code ends -/

/-- The walk passes backticks with a backslash before them. -/
theorem plainEnd?_guarded {p : Char} {w : List Char}
    (h : (p :: w).IsChain fun c d => d = '\x60' → c = '\\') (done s : List Char) :
    plainEnd? (p == '\\') done (w ++ s) =
      plainEnd? (w.getLast?.getD p == '\\') (w.reverse ++ done) s := by
  induction w generalizing p done with
  | nil => rfl
  | cons c w ih =>
      rw [List.isChain_cons_cons] at h
      have hpass : ¬ (c == '\x60' && !(p == '\\')) = true := by
        simpa using h.1
      rw [List.cons_append, plainEnd?, if_neg hpass, ih h.2, List.getLast?_cons, Option.getD_some,
        List.reverse_cons, List.append_assoc, List.singleton_append]

theorem plainEnd?_eq_none (protect : Bool) (done : List Char) {s : List Char} (h : '\x60' ∉ s) :
    plainEnd? protect done s = none := by
  induction s generalizing protect done with
  | nil => rfl
  | cons c s ih =>
      rw [List.mem_cons, not_or] at h
      have hpass : ¬ (c == '\x60' && !protect) = true := by
        rw [Bool.and_eq_true, beq_iff_eq]
        exact fun hboth => h.1 hboth.1.symm
      rw [plainEnd?, if_neg hpass, ih _ _ h.2]

theorem lastEnd?_append (code : List Char) {after : List Char} (h : '\x60' ∉ after) :
    lastEnd? (code ++ '\x60' :: after) = some (code, after) := by
  have hrun : ∀ c ∈ after.reverse, (c != '\x60') = true := by
    intro c hc
    rw [bne_iff_ne]
    rintro rfl
    exact h (List.mem_reverse.mp hc)
  have htext : (code ++ '\x60' :: after).reverse = after.reverse ++ '\x60' :: code.reverse := by
    simp
  have hdrop := dropWhile_run (s := '\x60' :: code.reverse) hrun (by simp)
  have htake := takeWhile_run (s := '\x60' :: code.reverse) hrun (by simp)
  simp only [lastEnd?, htext, hdrop, htake, List.reverse_reverse]

theorem lastEnd?_eq_none {s : List Char} (h : '\x60' ∉ s) : lastEnd? s = none := by
  have hdrop : s.reverse.dropWhile (fun c => c != '\x60') = [] := by
    rw [List.dropWhile_eq_nil_iff]
    intro c hc
    rw [bne_iff_ne]
    rintro rfl
    exact h (List.mem_reverse.mp hc)
  simp only [lastEnd?, hdrop]

theorem codeAt?_of_closes {code after : List Char} (h : Closes code after) :
    codeAt? (code ++ '\x60' :: after) = some (code, after) := by
  have hwalk := plainEnd?_guarded h.guarded [] ('\x60' :: after)
  rw [List.append_nil] at hwalk
  by_cases hslash : code.getLast? = some '\\'
  · -- The closing backtick is passed as well, and there is no other one to stop at.
    have hafter : '\x60' ∉ after := h.ends.resolve_left (not_not_intro hslash)
    have hnone : plainEnd? false [] (code ++ '\x60' :: after) = none := by
      refine hwalk.trans ?_
      rw [hslash, plainEnd?, if_neg (by simp), plainEnd?_eq_none _ _ hafter]
    rw [codeAt?, hnone, Option.none_or, lastEnd?_append code hafter]
  · have hlast : (code.getLast?.getD '\x60' == '\\') = false := by
      cases hcode : code.getLast? with
      | none => rfl
      | some c => simpa [hcode] using hslash
    have hsome : plainEnd? false [] (code ++ '\x60' :: after) = some (code, after) := by
      refine hwalk.trans ?_
      rw [hlast, plainEnd?, if_pos (by simp), List.reverse_reverse]
    rw [codeAt?, hsome, Option.some_or]

theorem codeAt?_eq_none {s : List Char} (h : '\x60' ∉ s) : codeAt? s = none := by
  rw [codeAt?, plainEnd?_eq_none _ _ h, lastEnd?_eq_none h]
  rfl

/-- A backtick without a backslash before it comes first somewhere, or else all have one. -/
theorem guarded_split (p : Char) (s : List Char) :
    (∃ w after, s = w ++ '\x60' :: after ∧
      ((p :: w).IsChain fun c d => d = '\x60' → c = '\\') ∧ w.getLast?.getD p ≠ '\\') ∨
      (p :: s).IsChain fun c d => d = '\x60' → c = '\\' := by
  induction s generalizing p with
  | nil => exact Or.inr (.singleton p)
  | cons c s ih =>
      by_cases hguard : c = '\x60' → p = '\\'
      · rcases ih c with ⟨w, after, hs, hchain, hlast⟩ | hchain
        · refine Or.inl ⟨c :: w, after, by rw [hs, List.cons_append], ?_, ?_⟩
          · exact List.isChain_cons_cons.mpr ⟨hguard, hchain⟩
          · rwa [List.getLast?_cons, Option.getD_some]
        · exact Or.inr (List.isChain_cons_cons.mpr ⟨hguard, hchain⟩)
      · -- This is the one, and nothing comes before it.
        rw [Classical.not_imp] at hguard
        refine Or.inl ⟨[], s, by rw [hguard.1, List.nil_append], .singleton p, ?_⟩
        exact hguard.2

theorem exists_closes {s : List Char} (h : '\x60' ∈ s) :
    ∃ code after, s = code ++ '\x60' :: after ∧ Closes code after := by
  rcases guarded_split '\x60' s with ⟨w, after, hs, hchain, hlast⟩ | hchain
  · refine ⟨w, after, hs, hchain, Or.inl fun hslash => hlast ?_⟩
    rw [hslash, Option.getD_some]
  · -- All have a backslash, so the last backtick closes the block.
    rcases List.eq_append_cons_of_mem (List.mem_reverse.mpr h) with ⟨u, v, hsplit, hnone⟩
    have hs : s = v.reverse ++ '\x60' :: u.reverse := by
      rw [← List.reverse_reverse s, hsplit]
      simp
    refine ⟨v.reverse, u.reverse, hs, ?_, Or.inr fun hmem => hnone (List.mem_reverse.mp hmem)⟩
    rw [hs, ← List.cons_append] at hchain
    exact hchain.left_of_append

/-! ## Where a block opens -/

theorem ne_tick_of_isBlockNameChar {c : Char} (h : isBlockNameChar c = true) : c ≠ '\x60' := by
  rintro rfl
  exact absurd h (by decide)

theorem next?_name (plain run : List Char) {name : List Char}
    (h : ∀ c ∈ name, isBlockNameChar c = true) (s : List Char) :
    Block.next? plain run (name ++ s) = Block.next? plain (name.reverse ++ run) s := by
  induction name generalizing run with
  | nil => rfl
  | cons c name ih =>
      have hc := h c (by simp)
      rw [List.cons_append, Block.next?, if_neg (by simp [ne_tick_of_isBlockNameChar hc]),
        if_pos hc, ih _ fun d hd => h d (List.mem_cons_of_mem _ hd)]
      simp

/-- What comes before a block is passed. The walk may be in a run of name characters
    already, if the text does not open a block directly behind it. -/
theorem next?_before (plain : List Char) {run before : List Char}
    (hplain : before.IsChain fun c d => d = '\x60' → isBlockNameChar c = false)
    (hwhole : ∀ c ∈ before.getLast?, isBlockNameChar c = false)
    (hrun : run ≠ [] → before ≠ [] ∧ before.head? ≠ some '\x60') (s : List Char) :
    Block.next? plain run (before ++ s) = Block.next? (before.reverse ++ run ++ plain) [] s := by
  induction before generalizing plain run with
  | nil =>
      have hnil : run = [] := by
        by_contra hne
        exact (hrun hne).1 rfl
      subst hnil
      rfl
  | cons c before ih =>
      have hopen : ¬ (c == '\x60' && !run.isEmpty) = true := by
        rw [Bool.and_eq_true, beq_iff_eq]
        rintro ⟨rfl, hne⟩
        exact (hrun (by simpa using hne)).2 rfl
      have hrest : ∀ d ∈ before.getLast?, isBlockNameChar d = false := fun d hd =>
        hwhole d (List.mem_getLast?_cons hd)
      rw [List.cons_append, Block.next?, if_neg hopen]
      by_cases hc : isBlockNameChar c = true
      · -- The run goes on, and it does not end the text or open a block.
        rw [if_pos hc, ih plain hplain.tail hrest]
        · simp
        · intro _
          refine ⟨?_, ?_⟩
          · rintro rfl
            have := hwhole c (by simp)
            rw [hc] at this
            exact absurd this (by simp)
          · intro hhead
            have := (List.isChain_cons.mp hplain).1 '\x60' hhead rfl
            rw [hc] at this
            exact absurd this (by simp)
      · rw [if_neg hc, ih _ hplain.tail hrest fun hne => absurd rfl hne]
        simp

theorem next?_block {before name code after : List Char} (hopens : Opens before name)
    (hcloses : Closes code after) :
    Block.next? [] [] (before ++ (name ++ '\x60' :: (code ++ '\x60' :: after))) =
      some (before, name, code, after) := by
  rw [next?_before [] hopens.plain hopens.whole (fun hne => absurd rfl hne),
    next?_name _ _ hopens.named, Block.next?, if_pos (by simpa using hopens.nonempty),
    codeAt?_of_closes hcloses]
  simp

/-- Nothing is found where no block is. -/
theorem next?_eq_none {plain run s : List Char} (hrun : ∀ c ∈ run, isBlockNameChar c = true)
    (h : NoBlock (run.reverse ++ s)) : Block.next? plain run s = none := by
  induction s generalizing plain run with
  | nil => rfl
  | cons c s ih =>
      rw [Block.next?]
      by_cases hopen : (c == '\x60' && !run.isEmpty) = true
      · -- The opening backtick has no other one behind it.
        rw [if_pos hopen]
        rw [Bool.and_eq_true, beq_iff_eq] at hopen
        rcases hopen with ⟨rfl, hne⟩
        cases run with
        | nil => simp at hne
        | cons d run =>
            -- The run is kept in reverse, so its first character stands before the backtick.
            have hnone := h run.reverse d s (by simp) (hrun d (by simp))
            rw [codeAt?_eq_none hnone]
            rfl
      · rw [if_neg hopen]
        by_cases hc : isBlockNameChar c = true
        · rw [if_pos hc]
          refine ih ?_ (by simpa using h)
          intro d hd
          rcases List.mem_cons.mp hd with rfl | hd
          · exact hc
          · exact hrun d hd
        · -- A new run starts behind this character, and what is said of the text stays true.
          rw [if_neg hc]
          refine ih (by simp) fun u d v hs hd => ?_
          refine h (run.reverse ++ c :: u) d v ?_ hd
          rw [List.reverse_nil, List.nil_append] at hs
          rw [hs]
          simp

/-- A text has no block, or it has a first opening with a backtick behind it. -/
theorem exists_opens (s : List Char) :
    NoBlock s ∨ ∃ before name rest, s = before ++ (name ++ '\x60' :: rest) ∧ Opens before name ∧
      '\x60' ∈ rest := by
  induction s with
  | nil => exact Or.inl fun u c v hs => by simp at hs
  | cons c s ih =>
      by_cases hfirst : isBlockNameChar c = true ∧ ∃ rest, s = '\x60' :: rest ∧ '\x60' ∈ rest
      · -- The first character is a name that opens a block.
        rcases hfirst with ⟨hc, rest, rfl, hrest⟩
        exact Or.inr ⟨[], [c], rest, rfl, ⟨.nil, by simp, by simpa using hc, by simp⟩, hrest⟩
      · rcases ih with hnone | ⟨before, name, rest, rfl, hopens, hrest⟩
        · refine Or.inl fun u d v hs hd => ?_
          cases u with
          | nil =>
              rw [List.nil_append, List.cons.injEq] at hs
              intro hv
              exact hfirst ⟨by rw [hs.1]; exact hd, v, hs.2, hv⟩
          | cons e u =>
              rw [List.cons_append, List.cons.injEq] at hs
              exact hnone u d v hs.2 hd
        · refine Or.inr ?_
          cases before with
          | nil =>
              by_cases hc : isBlockNameChar c = true
              · -- The run starts one character earlier.
                refine ⟨[], c :: name, rest, rfl, ⟨.nil, by simp, ?_, by simp⟩, hrest⟩
                intro d hd
                rcases List.mem_cons.mp hd with rfl | hd
                · exact hc
                · exact hopens.named d hd
              · refine ⟨[c], name, rest, rfl, ⟨.singleton c, ?_, hopens.named, hopens.nonempty⟩,
                  hrest⟩
                simpa using hc
          | cons d before =>
              -- A backtick that came second would open a block at the first character.
              refine ⟨c :: d :: before, name, rest, rfl,
                ⟨?_, ?_, hopens.named, hopens.nonempty⟩, hrest⟩
              · refine List.isChain_cons_cons.mpr ⟨fun hd => ?_, hopens.plain⟩
                by_contra hc
                refine hfirst ⟨by simpa using hc, before ++ (name ++ '\x60' :: rest), ?_, by simp⟩
                rw [hd, List.cons_append]
              · intro e he
                exact hopens.whole e (by simpa [List.getLast?_cons] using he)

/-! ## Margins -/

theorem takeWhile_append_stop {p : Char → Bool} (s : List Char) {c : Char} (hc : p c = false)
    (rest : List Char) : (s ++ c :: rest).takeWhile p = s.takeWhile p := by
  induction s with
  | nil => simp [hc]
  | cons d s ih =>
      rw [List.cons_append, List.takeWhile_cons, List.takeWhile_cons, ih]

/-- The last line of a text is what comes behind its last line feed. -/
theorem drop_lineStart (text : List Char) :
    text.drop (Text.lineStart text) = (text.reverse.takeWhile (· != '\n')).reverse := by
  have hline : text.reverse.takeWhile (· != '\n') =
      text.reverse.take (text.reverse.takeWhile (· != '\n')).length :=
    List.prefix_iff_eq_take.mp (List.takeWhile_prefix _)
  rw [hline, List.reverse_take, List.reverse_reverse, List.length_reverse, Text.lineStart]

/-- The margin that is found behind a text is that of the line in the document. -/
theorem lineMargin_eq (text : List Char) {c : Char} (hc : isMarginChar c = false)
    (rest : List Char) : lineMargin text.reverse = indentAt (text ++ c :: rest) text.length := by
  have hstart : Text.lineStart text ≤ text.length := Nat.sub_le _ _
  rw [indentAt, List.take_left, List.drop_append_of_le_length hstart, takeWhile_append_stop _ hc,
    drop_lineStart]
  rfl

/-- The characters of a block's name are some of those of names in general. -/
theorem isNameChar_of_isBlockNameChar {c : Char} (h : isBlockNameChar c = true) :
    isNameChar c = true := by
  rw [isBlockNameChar, Bool.or_eq_true] at h
  rcases h with h | h <;> simp [isNameChar, h]

/-! ## All blocks -/

/-- Every document can be scanned. -/
theorem exists_scanned (front rest : List Char) : ∃ found tail, Scanned front rest found tail := by
  -- By the length: a block takes as much of the text as it needs.
  induction hlen : rest.length using Nat.strongRecOn generalizing front rest with
  | ind n ih =>
      rcases exists_opens rest with hnone | ⟨before, name, behind, rfl, hopens, hbehind⟩
      · exact ⟨[], rest, .done hnone⟩
      · rcases exists_closes hbehind with ⟨code, after, rfl, hcloses⟩
        let b : Block := ⟨before, name, code,
          indentAt (front ++ before ++ (name ++ '\x60' :: code ++ ['\x60']) ++ after)
            (front ++ before).length⟩
        have hshort : after.length < n := by
          simp only [List.length_append, List.length_cons] at hlen
          omega
        rcases ih _ hshort (front ++ before ++ b.written) after rfl with ⟨others, tail, hothers⟩
        refine ⟨b :: others, tail, ?_⟩
        have hscan : Scanned front (b.before ++ b.written ++ after) (b :: others) tail :=
          .block hopens hcloses rfl hothers
        simpa [b, Block.written] using hscan

/-- One turn of the search finds the first block of a scan. -/
theorem turn_block {front after : List Char} {b : Block} (hopens : Opens b.before b.name)
    (hcloses : Closes b.code after)
    (hmargin : b.margin =
      indentAt (front ++ b.before ++ b.written ++ after) (front ++ b.before).length)
    (found : List Block) :
    Search.turn ⟨front.reverse, found, b.before ++ b.written ++ after⟩ =
      .ok (.next ⟨(front ++ b.before ++ b.written).reverse, b :: found, after⟩) := by
  have hrest : b.before ++ b.written ++ after =
      b.before ++ (b.name ++ '\x60' :: (b.code ++ '\x60' :: after)) := by
    simp [Block.written]
  have hmargin' : lineMargin (b.before.reverse ++ front.reverse) = b.margin := by
    rcases List.exists_cons_of_ne_nil hopens.nonempty with ⟨c, name, hname⟩
    have hc : isMarginChar c = false :=
      isMarginChar_of_isNameChar (isNameChar_of_isBlockNameChar (hopens.named c (by simp [hname])))
    rw [← List.reverse_append, lineMargin_eq _ hc (name ++ '\x60' :: (b.code ++ '\x60' :: after)),
      hmargin, Block.written, hname]
    simp
  rw [Search.turn, hrest, next?_block hopens hcloses]
  simp [hmargin', Block.written]

theorem run_of_scanned {front rest tail : List Char} {bs : List Block}
    (h : Scanned front rest bs tail) (found : List Block) :
    blockLoop.run ⟨front.reverse, found, rest⟩ = .ok (found.reverse ++ bs, tail) := by
  induction h generalizing found with
  | @done front rest h =>
      have hturn : blockLoop.turn ⟨front.reverse, found, rest⟩ =
          .ok (.stop (found.reverse, rest)) := by
        have hnone := @next?_eq_none [] [] rest (by simp) h
        change Search.turn ⟨front.reverse, found, rest⟩ = .ok (.stop (found.reverse, rest))
        rw [Search.turn, hnone]
      rw [Loop.run_of_stop hturn, List.append_nil]
  | @block front after tail b others hopens hcloses hmargin _ ih =>
      have hturn : blockLoop.turn ⟨front.reverse, found, b.before ++ b.written ++ after⟩ =
          .ok (.next ⟨(front ++ b.before ++ b.written).reverse, b :: found, after⟩) :=
        turn_block hopens hcloses hmargin found
      rw [Loop.run_of_next hturn, ih (b :: found), List.reverse_cons, List.append_assoc,
        List.singleton_append]

theorem blocks_of_scanned {source tail : List Char} {bs : List Block}
    (h : Scanned [] source bs tail) : blocks source = (bs, tail) := by
  have hrun : blockLoop.run ⟨[], [], source⟩ = .ok (bs, tail) := run_of_scanned h []
  rw [blocks, hrun]

/-- The blocks that are found are those of the scan. -/
theorem scanned_iff {source tail : List Char} {bs : List Block} :
    Scanned [] source bs tail ↔ blocks source = (bs, tail) := by
  constructor
  · exact blocks_of_scanned
  · intro h
    rcases exists_scanned [] source with ⟨found, rest, hscan⟩
    rw [blocks_of_scanned hscan, Prod.mk.injEq] at h
    rw [← h.1, ← h.2]
    exact hscan

/-- A document is its blocks with the texts before them, and the text behind them. -/
theorem eq_of_scanned {front rest tail : List Char} {bs : List Block}
    (h : Scanned front rest bs tail) :
    rest = bs.flatMap (fun b => b.before ++ b.written) ++ tail := by
  induction h with
  | done h => rfl
  | @block front after tail b others _ _ _ _ ih =>
      rw [List.flatMap_cons, List.append_assoc (b.before ++ b.written), ← ih]

/-! ## Blocks that are replaced -/

/-- Code as it is written in a block, and as it is meant: where a backslash stands directly
    before a backtick only the backtick is meant, and every other character is itself. -/
inductive Unescapes : List Char → List Char → Prop where
  | nil : Unescapes [] []
  | tick {rest code : List Char} (h : Unescapes rest code) :
      Unescapes ('\\' :: '\x60' :: rest) ('\x60' :: code)
  | other {c : Char} {rest code : List Char} (hc : c = '\\' → rest.head? ≠ some '\x60')
      (h : Unescapes rest code) : Unescapes (c :: rest) (c :: code)

/-- What stands in place of a block: the Fusion of the code that is meant, at the margin of
    the block, if it has the name in the settings, and else the block as it is written. -/
def Settings.Stands (s : Settings) (b : Block) (result : Except Failure String) : Prop :=
  (s.blockName = .text (String.ofList b.name) → ∃ code, Unescapes b.code code ∧
    result = s.convert (.text (String.ofList b.margin)) (String.ofList code)) ∧
  (s.blockName ≠ .text (String.ofList b.name) → result = .ok (String.ofList b.written))

/-- Texts in turn from two lists. -/
def interleaved : List (List Char) → List String → String
  | before :: rest, fusion :: fusions =>
    String.ofList before ++ fusion ++ interleaved rest fusions
  | _, _ => ""

theorem unprotected_of_unescapes {written code : List Char} (h : Unescapes written code)
    (done : List Char) : unprotected done written = done.reverse ++ code := by
  induction h generalizing done with
  | nil => rw [unprotected, List.append_nil]
  | tick _ ih =>
      rw [unprotected, ih]
      simp
  | @other c rest code hc _ ih =>
      have hstep : unprotected done (c :: rest) = unprotected (c :: done) rest := by
        rw [unprotected.eq_3]
        rintro more rfl rfl
        exact hc rfl rfl
      rw [hstep, ih]
      simp

theorem exists_unescapes (written : List Char) : ∃ code, Unescapes written code := by
  induction hlen : written.length using Nat.strongRecOn generalizing written with
  | ind n ih =>
      subst hlen
      cases written with
      | nil => exact ⟨[], .nil⟩
      | cons c rest =>
          by_cases hc : c = '\\' → rest.head? ≠ some '\x60'
          · rcases ih _ (by simp) rest rfl with ⟨code, hcode⟩
            exact ⟨c :: code, .other hc hcode⟩
          · -- The backslash and the backtick go together.
            rw [Classical.not_imp, not_not] at hc
            rcases hc with ⟨rfl, htick⟩
            rcases List.head?_eq_some_iff.mp htick with ⟨more, rfl⟩
            rcases ih _ (by simp only [List.length_cons]; omega) more rfl with ⟨code, hcode⟩
            exact ⟨'\x60' :: code, .tick hcode⟩

/-- The code that is meant is that without the backslashes that protect its backticks. -/
theorem unescapes_iff {written code : List Char} :
    Unescapes written code ↔ unprotected [] written = code := by
  constructor
  · intro h
    rw [unprotected_of_unescapes h, List.reverse_nil, List.nil_append]
  · rintro rfl
    rcases exists_unescapes written with ⟨code, hcode⟩
    rwa [unprotected_of_unescapes hcode, List.reverse_nil, List.nil_append]

theorem converts_iff (s : Settings) (b : Block) :
    s.converts b = true ↔ s.blockName = .text (String.ofList b.name) := by
  unfold Settings.converts
  cases s.blockName with
  | text name => simp
  | _ => simp

theorem stands_iff (s : Settings) (b : Block) (result : Except Failure String) :
    s.Stands b result ↔ result = s.replacement b := by
  unfold Settings.Stands Settings.replacement
  simp only [unescapes_iff, exists_eq_left']
  by_cases h : s.converts b = true
  · have hname := (converts_iff s b).mp h
    simp [h, hname]
  · have hname : s.blockName ≠ .text (String.ofList b.name) := fun hname =>
      h ((converts_iff s b).mpr hname)
    simp [h, hname]

theorem map_replacement {s : Settings} {bs : List Block} {results : List (Except Failure String)}
    (h : List.Forall₂ s.Stands bs results) : bs.map s.replacement = results := by
  induction h with
  | nil => rfl
  | cons hfirst _ ih => rw [List.map_cons, ih, (stands_iff _ _ _).mp hfirst]

theorem replaced_of_ok {s : Settings} {bs : List Block} {texts : List String}
    (h : bs.map s.replacement = texts.map .ok) :
    s.replaced bs = .ok (interleaved (bs.map Block.before) texts) := by
  induction bs generalizing texts with
  | nil => rfl
  | cons b bs ih =>
      cases texts with
      | nil => simp at h
      | cons text texts =>
          rw [List.map_cons, List.map_cons, List.cons.injEq] at h
          rw [Settings.replaced, h.1, ih h.2]
          rfl

/-- The first block without a result decides. -/
theorem replaced_of_error {s : Settings} {bs : List Block} {texts : List String} {fault : Failure}
    {others : List (Except Failure String)}
    (h : bs.map s.replacement = texts.map .ok ++ .error fault :: others) :
    s.replaced bs = .error fault := by
  induction bs generalizing texts with
  | nil => simp at h
  | cons b bs ih =>
      rw [List.map_cons] at h
      cases texts with
      | nil =>
          rw [List.map_nil, List.nil_append, List.cons.injEq] at h
          rw [Settings.replaced, h.1]
          rfl
      | cons text texts =>
          rw [List.map_cons, List.cons_append, List.cons.injEq] at h
          rw [Settings.replaced, h.1, ih h.2]
          rfl

/-- A document is converted block by block, and all else stays. -/
theorem convertBlocks_of_scanned {s : Settings} {source tail : List Char} {bs : List Block}
    (h : Scanned [] source bs tail) {results : List (Except Failure String)}
    (hresults : List.Forall₂ s.Stands bs results) :
    (∀ texts : List String, results = texts.map .ok →
      s.convertBlocks (String.ofList source) =
        .ok (interleaved (bs.map Block.before) texts ++ String.ofList tail)) ∧
    (∀ (texts : List String) fault others, results = texts.map .ok ++ .error fault :: others →
      s.convertBlocks (String.ofList source) = .error fault) := by
  have hblocks := blocks_of_scanned h
  have hmap := map_replacement hresults
  have hconvert : s.convertBlocks (String.ofList source) =
      (s.replaced bs).map fun front => front ++ String.ofList tail := by
    rw [Settings.convertBlocks, String.toList_ofList, hblocks]
  refine ⟨?_, ?_⟩
  · intro texts htexts
    rw [hconvert, replaced_of_ok (hmap.trans htexts)]
    rfl
  · intro texts fault others herror
    rw [hconvert, replaced_of_error (hmap.trans herror)]
    rfl

/-! ## Code in blocks -/

/-- Code with a backslash before each of its backticks. -/
def protectedCode (code : List Char) : List Char :=
  code.flatMap fun c => if c = '\x60' then ['\\', '\x60'] else [c]

/-- A document of texts, each with a block of code behind it, and a text at the end. -/
def embedded (name : List Char) : List (List Char × List Char) → List Char → List Char
  | [], tail => tail
  | (before, code) :: rest, tail =>
    before ++ (name ++ '\x60' :: (protectedCode code ++ '\x60' :: embedded name rest tail))

theorem protectedCode_tick (code : List Char) :
    protectedCode ('\x60' :: code) = '\\' :: '\x60' :: protectedCode code :=
  rfl

theorem protectedCode_cons {c : Char} (h : c ≠ '\x60') (code : List Char) :
    protectedCode (c :: code) = c :: protectedCode code := by
  rw [protectedCode, List.flatMap_cons, if_neg h]
  rfl

theorem head?_protectedCode (code : List Char) : (protectedCode code).head? ≠ some '\x60' := by
  cases code with
  | nil => simp [protectedCode]
  | cons c code =>
      by_cases hc : c = '\x60'
      · subst hc
        simp [protectedCode_tick]
      · simpa [protectedCode_cons hc] using hc

/-- Protected backticks have backslashes before them, wherever the code stands. -/
theorem guarded_protectedCode (p : Char) (code : List Char) :
    (p :: protectedCode code).IsChain fun c d => d = '\x60' → c = '\\' := by
  induction code generalizing p with
  | nil => exact .singleton p
  | cons c code ih =>
      by_cases hc : c = '\x60'
      · subst hc
        rw [protectedCode_tick, List.isChain_cons_cons, List.isChain_cons_cons]
        exact ⟨fun hslash => absurd hslash (by decide), fun _ => rfl, ih '\x60'⟩
      · rw [protectedCode_cons hc, List.isChain_cons_cons]
        exact ⟨fun htick => absurd htick hc, ih c⟩

theorem getLast?_protectedCode (code : List Char) :
    (protectedCode code).getLast? = code.getLast? := by
  induction code with
  | nil => rfl
  | cons c code ih =>
      by_cases hc : c = '\x60'
      · subst hc
        rw [protectedCode_tick, List.getLast?_cons, List.getLast?_cons, ih, Option.getD_some,
          List.getLast?_cons]
      · rw [protectedCode_cons hc, List.getLast?_cons, List.getLast?_cons, ih]

/-- Protecting the backticks of code is a way to write it. -/
theorem unescapes_protectedCode (code : List Char) : Unescapes (protectedCode code) code := by
  induction code with
  | nil => exact .nil
  | cons c code ih =>
      by_cases hc : c = '\x60'
      · subst hc
        exact .tick ih
      · -- A backslash that was there before has no backtick directly behind it now.
        rw [protectedCode_cons hc]
        exact .other (fun _ => head?_protectedCode code) ih

theorem embedded_append (name : List Char) (parts others : List (List Char × List Char))
    (tail : List Char) :
    embedded name (parts ++ others) tail = embedded name parts (embedded name others tail) := by
  induction parts with
  | nil => rfl
  | cons part parts ih => simp [embedded, ih]

theorem embedded_tail (name : List Char) (parts : List (List Char × List Char))
    (tail : List Char) : embedded name parts tail = embedded name parts [] ++ tail := by
  induction parts with
  | nil => rfl
  | cons part parts ih => rw [embedded, ih, embedded]; simp

/-- A text and a code that can stand in a document together: the text has no backtick and
    does not run into the name behind it, and the code does not end in a backslash. -/
structure Embeddable (part : List Char × List Char) : Prop where
  plain : '\x60' ∉ part.1
  whole : ∀ c ∈ part.1.getLast?, isBlockNameChar c = false
  closed : part.2.getLast? ≠ some '\\'

instance (part : List Char × List Char) : Decidable (Embeddable part) :=
  decidable_of_iff ('\x60' ∉ part.1 ∧ part.1.getLast?.all (fun c => !isBlockNameChar c) = true ∧
      part.2.getLast? ≠ some '\\')
    ⟨fun ⟨hplain, hwhole, hclosed⟩ => ⟨hplain, by simpa [Option.all_eq_true] using hwhole, hclosed⟩,
      fun h => ⟨h.plain, by simpa [Option.all_eq_true] using h.whole, h.closed⟩⟩

/-- The margin of the line on which the block of a part starts. -/
def embeddedMargin (name : List Char) (parts : List (List Char × List Char)) (tail : List Char)
    (part : List Char × List Char) (index : Nat) : List Char :=
  indentAt (embedded name parts tail) (embedded name (parts.take index) part.1).length

/-- The block of a part with its index. -/
def embeddedBlock (name : List Char) (parts : List (List Char × List Char)) (tail : List Char)
    (entry : (List Char × List Char) × Nat) : Block :=
  ⟨entry.1.1, name, protectedCode entry.1.2, embeddedMargin name parts tail entry.1 entry.2⟩

/-- The Fusion of the codes in a document, each at the margin of its line. -/
def Settings.embeddedFusion (s : Settings) (name : List Char)
    (parts : List (List Char × List Char)) (tail : List Char) : List (Except Failure String) :=
  parts.zipIdx.map fun (part, index) =>
    s.convert (.text (String.ofList (embeddedMargin name parts tail part index)))
      (String.ofList part.2)

theorem opens_of_embeddable {name : List Char} (hname : ∀ c ∈ name, isBlockNameChar c = true)
    (hne : name ≠ []) {part : List Char × List Char} (h : Embeddable part) :
    Opens part.1 name := by
  have hchain : ∀ before : List Char, '\x60' ∉ before →
      before.IsChain fun c d => d = '\x60' → isBlockNameChar c = false := by
    intro before hbefore
    induction before with
    | nil => exact .nil
    | cons c before ih =>
        rw [List.mem_cons, not_or] at hbefore
        refine List.isChain_cons.mpr ⟨?_, ih hbefore.2⟩
        rintro d hd rfl
        exact absurd (List.mem_of_mem_head? hd) hbefore.2
  exact ⟨hchain part.1 h.plain, h.whole, hname, hne⟩

/-- The blocks of the document are those of its parts. -/
theorem scanned_embedded {name : List Char} (hname : ∀ c ∈ name, isBlockNameChar c = true)
    (hne : name ≠ []) {tail : List Char} (htail : '\x60' ∉ tail)
    (done rest : List (List Char × List Char)) (hrest : ∀ part ∈ rest, Embeddable part) :
    Scanned (embedded name done []) (embedded name rest tail)
      ((rest.zipIdx done.length).map (embeddedBlock name (done ++ rest) tail)) tail := by
  -- The parts that are done stay in view, as a line may start inside of one of them.
  induction rest generalizing done with
  | nil =>
      refine .done fun u c v hs _ => ?_
      rw [embedded] at hs
      exact absurd (by rw [hs]; simp) htail
  | cons part rest ih =>
      have hpart := hrest part (by simp)
      have hothers := ih (done ++ [part]) fun other hother =>
        hrest other (List.mem_cons_of_mem _ hother)
      -- The text up to the block, the block, and what is behind it, in the document.
      have hfront : embedded name done part.1 = embedded name done [] ++ part.1 :=
        embedded_tail name done part.1
      have hnext : embedded name (done ++ [part]) [] = embedded name done [] ++ part.1 ++
          (name ++ '\x60' :: protectedCode part.2 ++ ['\x60']) := by
        rw [embedded_append, embedded_tail]
        simp [embedded]
      have hsource : embedded name (done ++ part :: rest) tail = embedded name done [] ++ part.1 ++
          (name ++ '\x60' :: protectedCode part.2 ++ ['\x60']) ++ embedded name rest tail := by
        rw [embedded_append, embedded_tail]
        simp [embedded]
      have hcloses : Closes (protectedCode part.2) (embedded name rest tail) :=
        ⟨guarded_protectedCode _ _, Or.inl (by rw [getLast?_protectedCode]; exact hpart.closed)⟩
      rw [List.length_append, List.length_singleton, List.append_assoc, List.singleton_append,
        hnext] at hothers
      have hmargin : embeddedMargin name (done ++ part :: rest) tail part done.length =
          indentAt (embedded name done [] ++ part.1 ++
            (name ++ '\x60' :: protectedCode part.2 ++ ['\x60']) ++ embedded name rest tail)
            (embedded name done [] ++ part.1).length := by
        rw [embeddedMargin, List.take_left, hfront, hsource]
      have hscan := @Scanned.block _ _ _
        (embeddedBlock name (done ++ part :: rest) tail (part, done.length)) _
        (opens_of_embeddable hname hne hpart) hcloses hmargin hothers
      rw [List.zipIdx_cons, List.map_cons]
      simpa [embedded, embeddedBlock, Block.written] using hscan

/-- Converting a document with codes in blocks is converting the codes: if all of them
    have Fusion, it takes the place of the blocks, and else the first fault is the fault
    of the document. -/
theorem convertBlocks_embedded {s : Settings} {name : String} (hs : s.blockName = .text name)
    (hname : ∀ c ∈ name.toList, isBlockNameChar c = true) (hne : name ≠ "")
    {parts : List (List Char × List Char)} (hparts : ∀ part ∈ parts, Embeddable part)
    {tail : List Char} (htail : '\x60' ∉ tail) :
    (∀ texts : List String, s.embeddedFusion name.toList parts tail = texts.map .ok →
      s.convertBlocks (String.ofList (embedded name.toList parts tail)) =
        .ok (interleaved (parts.map Prod.fst) texts ++ String.ofList tail)) ∧
    (∀ (texts : List String) fault others,
      s.embeddedFusion name.toList parts tail = texts.map .ok ++ .error fault :: others →
        s.convertBlocks (String.ofList (embedded name.toList parts tail)) = .error fault) := by
  have hscan : Scanned [] (embedded name.toList parts tail)
      (parts.zipIdx.map (embeddedBlock name.toList parts tail)) tail :=
    scanned_embedded hname (by simpa using hne) htail [] parts hparts
  have hstands : List.Forall₂ s.Stands
      (parts.zipIdx.map (embeddedBlock name.toList parts tail))
      (s.embeddedFusion name.toList parts tail) := by
    rw [Settings.embeddedFusion, List.forall₂_map_left_iff, List.forall₂_map_right_iff]
    refine List.forall₂_same.mpr fun entry _ => ⟨fun _ => ?_, fun hother => ?_⟩
    · exact ⟨entry.1.2, unescapes_protectedCode entry.1.2, rfl⟩
    · rw [embeddedBlock, String.ofList_toList] at hother
      exact absurd hs hother
  have hbefores : (parts.zipIdx.map (embeddedBlock name.toList parts tail)).map Block.before =
      parts.map Prod.fst := by
    calc (parts.zipIdx.map (embeddedBlock name.toList parts tail)).map Block.before
        = (parts.zipIdx.map Prod.fst).map Prod.fst := by
          rw [List.map_map, List.map_map]
          rfl
      _ = parts.map Prod.fst := by rw [List.zipIdx_map_fst]
  have hconvert := convertBlocks_of_scanned hscan hstands
  rw [hbefores] at hconvert
  exact hconvert

/-- A code with a backtick in it and one with a backslash before it, and a block on a line
    that starts inside of the block before; and of two codes with a fault, the first. -/
theorem convertBlocks_embedded_line :
    ({} : Settings).convertBlocks "\ta = afx\x60\\\x60x\\\\\x60\n  y\x60 afx\x60<b/>\x60\n" =
      .ok ("\ta = '\x60x\\\\\x60 y' Neos.Fusion:Tag \x7b\n      tagName = 'b'\n" ++
        "      selfClosingTag = true\n  \x7d\n") ∧
    ∃ fault, ({} : Settings).convert (.text "") "<" = .error fault ∧
      ({} : Settings).convertBlocks "afx\x60x\x60afx\x60<\x60afx\x60\x7b\x60" = .error fault := by
  have hparts : ∀ part ∈ [("\ta = ".toList, "\x60x\\\x60\n  y".toList), ([' '], "<b/>".toList)],
      Embeddable part := by
    decide
  have hfaults : ∀ part ∈ [([], ['x']), ([], ['<']), ([], ['\x7b'])], Embeddable part := by
    decide
  have hname : ∀ c ∈ "afx".toList, isBlockNameChar c = true := List.all_eq_true.mp (by decide)
  have hconvert := (@convertBlocks_embedded {} "afx" rfl hname (by decide) _ hparts ['\n']
    (by decide)).1 ["'\x60x\\\\\x60 y'", "Neos.Fusion:Tag \x7b\n      tagName = 'b'\n" ++
      "      selfClosingTag = true\n  \x7d"] rfl
  have hfault := (@convertBlocks_embedded {} "afx" rfl hname (by decide) _ hfaults []
    (by decide)).2 ["'x'"] _ _ rfl
  exact ⟨hconvert, _, rfl, hfault⟩

end Fusion

end Afx
