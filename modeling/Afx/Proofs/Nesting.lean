import Afx.Proofs.Balance
import Mathlib.Data.List.Infix

/-!
# Which Braces Are to Blame

A document whose braces do not nest is refused, and the refusal says why. Either it
names the line of a closing brace that closes nothing, or the number of braces that
were never closed. Here is that it names the right ones.

The first thing to settle is that there is something to be right about. `Counted`
describes the braces that count by the form of a document, and a document could have
two forms. It has not: `listed` reads the braces off one character at a time, and
every form lists the same. Each of them also stands in the document on the line that
it is listed with.

What remains is about lists of braces. A closing brace is to blame if it is the first
to make the closing braces more than the opening ones. An opening brace is to blame
if it has no partner, that is, no closing brace behind it with only nested braces in
between. The check knows no partners, it only counts. But a list that it gets through
falls apart into nested pieces with one open brace between two of them, and these
are the braces without a partner: a partner would close what stands behind such a
brace, where nothing is left to close.

## Main definitions

* `Mode`, `listed`: The braces of a document, one character at a time.
* `Placed`: Braces that stand in a text on their lines.
* `Exceeds`: Braces of which more close than open.
* `Paired`, `Lone`: An opening brace with a partner, and one without.
* `Opened`: Nested braces with a number of open ones between them.

## Theorems

* `Counted.eq_listed`: A document has one list of braces that count.
* `Counted.placed`: They stand in the document on their lines.
* `tally_eq_error`, `tally_eq_ok`: What the count says about where braces exceed.
* `opened_of_tally`: What is left open stands between nested pieces.
* `Opened.lone`: These are the braces without a partner.
* `checkBraces_blames`: A refusal names the right brace, or the right number.
-/

namespace Afx

namespace Fusion

/-! ## One list of braces -/

/-- How a character is read: as code, as part of a comment line, or inside of a quotation,
    where it may be protected. -/
inductive Mode where
  | code
  | comment
  | quoted (quote : Char) (protect : Bool)

/-- How a line is read from its start, behind a line that ended in the given mode. -/
def Mode.behindLine (text : List Char) : Mode → Mode
  | quoted quote protect => quoted quote protect
  | code | comment => if StartsComment text then comment else code

/-- The braces that count, from the given line on. -/
def listed : Mode → Nat → List Char → List Brace
  | _, _, [] => []
  | mode, line, c :: rest =>
    if c = '\n' then listed (mode.behindLine rest) (line + 1) rest
    else match mode with
    | .comment => listed .comment line rest
    | .quoted quote true => listed (.quoted quote false) line rest
    | .quoted quote false =>
      if c = '\\' then listed (.quoted quote true) line rest
      else if c = quote then listed .code line rest
      else listed (.quoted quote false) line rest
    | .code =>
      if c = '\'' ∨ c = '"' then listed (.quoted c false) line rest
      else if c = '\x7b' then ⟨true, line⟩ :: listed .code line rest
      else if c = '\x7d' then ⟨false, line⟩ :: listed .code line rest
      else listed .code line rest

theorem listed_lineFeed (mode : Mode) (line : Nat) (rest : List Char) :
    listed mode line ('\n' :: rest) = listed (mode.behindLine rest) (line + 1) rest := by
  rw [listed.eq_def]
  exact if_pos rfl

theorem listed_breaks (quote : Char) (protect : Bool) (line breaks : Nat) (rest : List Char) :
    listed (.quoted quote protect) line (List.replicate breaks '\n' ++ rest) =
      listed (.quoted quote protect) (line + breaks) rest := by
  induction breaks generalizing line with
  | zero => rfl
  | succ breaks ih =>
      rw [List.replicate_succ, List.cons_append, listed_lineFeed, Mode.behindLine, ih,
        Nat.add_assoc, Nat.add_comm 1]

theorem listed_inside {quote : Char} {inside : List Char} (h : Inside quote inside) (line : Nat)
    (rest : List Char) :
    listed (.quoted quote false) line (inside ++ rest) =
      listed (.quoted quote false) (line + inside.count '\n') rest := by
  induction h generalizing line with
  | nil => rfl
  | @plain c inside hquote hslash _ ih =>
      by_cases hc : c = '\n'
      · subst hc
        rw [List.cons_append, listed_lineFeed, Mode.behindLine, ih, List.count_cons_self,
          Nat.add_assoc, Nat.add_comm 1]
      · rw [List.cons_append, listed, if_neg hc, if_neg hslash, if_neg hquote, ih,
          List.count_cons_of_ne hc]
  | @escaped c inside breaks hc _ ih =>
      have hcount : ('\\' :: List.replicate breaks '\n' ++ c :: inside).count '\n' =
          breaks + inside.count '\n' := by
        simp [List.count_cons_of_ne, hc]
      have hslash : ∀ text, listed (.quoted quote false) line ('\\' :: text) =
          listed (.quoted quote true) line text := by
        simp [listed]
      rw [List.append_assoc, List.cons_append, hslash, listed_breaks, List.cons_append, listed,
        if_neg hc, ih, hcount, Nat.add_assoc]

theorem listed_trailing {trailing : List Char} (h : Trailing trailing) (quote : Char)
    (line : Nat) : listed (.quoted quote false) line trailing = [] := by
  rcases h with rfl | ⟨breaks, rfl⟩
  · rfl
  · have hbreaks := listed_breaks quote true line breaks []
    rw [List.append_nil] at hbreaks
    simpa [listed] using hbreaks

/-- A comment goes on to the end of its line. -/
theorem listed_comment {content : List Char} (hline : '\n' ∉ content) (line : Nat)
    (rest : List Char) :
    listed .comment line (content ++ rest) = listed .comment line rest := by
  induction content with
  | nil => rfl
  | cons c content ih =>
      rw [List.mem_cons, not_or] at hline
      rw [List.cons_append, listed, if_neg (Ne.symm hline.1), ih hline.2]

theorem listed_quote {quote : Char} (hquote : quote = '\'' ∨ quote = '"') (line : Nat)
    (rest : List Char) :
    listed .code line (quote :: rest) = listed (.quoted quote false) line rest := by
  have hline : quote ≠ '\n' := by
    rcases hquote with rfl | rfl <;> decide
  rw [listed, if_neg hline, if_pos hquote]

theorem listed_unquote {quote : Char} (hquote : quote = '\'' ∨ quote = '"') (line : Nat)
    (rest : List Char) :
    listed (.quoted quote false) line (quote :: rest) = listed .code line rest := by
  have hother : quote ≠ '\n' ∧ quote ≠ '\\' := by
    rcases hquote with rfl | rfl <;> decide
  rw [listed, if_neg hother.1, if_neg hother.2, if_pos rfl]

/-- Whatever form a document is given, it has the braces that are listed. -/
theorem Counted.eq_listed {fresh : Bool} {line : Nat} {text : List Char} {braces : List Brace}
    (h : Counted fresh line text braces) :
    braces = listed (if fresh then Mode.code.behindLine text else .code) line text := by
  induction h with
  | done line => rfl
  | @lineFeed line rest braces _ ih =>
      rw [if_neg Bool.false_ne_true, listed_lineFeed]
      exact ih
  | @opening line rest braces _ ih =>
      rw [ih]
      simp [listed]
  | @closing line rest braces _ ih =>
      rw [ih]
      simp [listed]
  | @plain line c rest braces hc _ ih =>
      simp only [List.mem_cons, List.not_mem_nil, or_false, not_or] at hc
      rw [ih]
      simp [listed, hc]
  | @quotation line quote inside rest braces hquote hinside _ ih =>
      rw [if_neg Bool.false_ne_true, List.cons_append, listed_quote hquote, listed_inside hinside,
        listed_unquote hquote]
      exact ih
  | @unclosed line quote inside trailing hquote hinside htrailing =>
      rw [if_neg Bool.false_ne_true, List.cons_append, listed_quote hquote, listed_inside hinside,
        listed_trailing htrailing]
  | @comment line content rest braces hline hcomment _ ih =>
      have hstart := (startsComment_line content rest).mpr hcomment
      rw [if_pos rfl, Mode.behindLine, if_pos hstart, listed_comment hline, listed_lineFeed]
      exact ih
  | @lastComment line content hline hcomment =>
      have hskip := listed_comment hline line []
      rw [List.append_nil] at hskip
      rw [if_pos rfl, Mode.behindLine, if_pos hcomment, hskip]
      rfl
  | @ordinary line s braces hcomment _ ih =>
      rw [if_pos rfl, Mode.behindLine, if_neg hcomment]
      exact ih

/-- The character that a brace is. -/
def Brace.mark (brace : Brace) : Char :=
  if brace.opens then '\x7b' else '\x7d'

/-- The braces stand in the text in their order, each on its line, where the text starts on
    the given line. -/
inductive Placed : Nat → List Char → List Brace → Prop where
  | none (line : Nat) (text : List Char) : Placed line text []
  | next {line : Nat} {between rest : List Char} {brace : Brace} {braces : List Brace}
      (hline : brace.line = line + between.count '\n') (h : Placed brace.line rest braces) :
      Placed line (between ++ brace.mark :: rest) (brace :: braces)

theorem Placed.behind {line : Nat} {text : List Char} {braces : List Brace} (front : List Char)
    (h : Placed (line + front.count '\n') text braces) : Placed line (front ++ text) braces := by
  cases h with
  | none => exact .none line _
  | next hline h =>
      rw [Nat.add_assoc, ← List.count_append] at hline
      rw [← List.append_assoc]
      exact .next hline h

/-- The braces that count stand in the document on the lines that they are listed with. -/
theorem Counted.placed {fresh : Bool} {line : Nat} {text : List Char} {braces : List Brace}
    (h : Counted fresh line text braces) : Placed line text braces := by
  induction h with
  | done line => exact .none line []
  | lineFeed _ ih => exact Placed.behind ['\n'] ih
  | @opening line rest braces _ ih => exact @Placed.next line [] rest ⟨true, line⟩ braces rfl ih
  | @closing line rest braces _ ih => exact @Placed.next line [] rest ⟨false, line⟩ braces rfl ih
  | @plain line c rest braces hc _ ih =>
      refine Placed.behind [c] ?_
      rwa [List.count_eq_zero_of_not_mem (by simp_all [eq_comm])]
  | @quotation line quote inside rest braces hquote _ _ ih =>
      have hcount : (quote :: inside ++ [quote]).count '\n' = inside.count '\n' := by
        rcases hquote with rfl | rfl <;> simp
      have hbehind := Placed.behind (quote :: inside ++ [quote]) (hcount ▸ ih)
      simpa using hbehind
  | unclosed line => exact .none line _
  | @comment line content rest braces hline _ _ ih =>
      have hcount : (content ++ ['\n']).count '\n' = 1 := by
        simp [List.count_eq_zero_of_not_mem hline]
      have hbehind := Placed.behind (content ++ ['\n']) (hcount ▸ ih)
      simpa using hbehind
  | lastComment line => exact .none line _
  | ordinary _ _ ih => exact ih

/-! ## The first brace that closes nothing -/

/-- How many of the braces open something. -/
def openings (braces : List Brace) : Nat :=
  braces.countP (·.opens)

/-- How many of the braces close something. -/
def closings (braces : List Brace) : Nat :=
  braces.countP (! ·.opens)

/-- More braces close than open. -/
def Exceeds (braces : List Brace) : Prop :=
  openings braces < closings braces

instance (braces : List Brace) : Decidable (Exceeds braces) :=
  inferInstanceAs (Decidable (openings braces < closings braces))

theorem tally_open {brace : Brace} (h : brace.opens = true) (depth : Nat) (rest : List Brace) :
    tally depth (brace :: rest) = tally (depth + 1) rest := by
  rw [tally, if_pos h]

theorem tally_close {brace : Brace} (h : brace.opens = false) (depth : Nat) (rest : List Brace) :
    tally (depth + 1) (brace :: rest) = tally depth rest := by
  rw [tally, if_neg (by simp [h]), if_neg (by omega), Nat.add_sub_cancel]

theorem openings_cons (brace : Brace) (rest : List Brace) :
    openings (brace :: rest) = openings [brace] + openings rest := by
  rw [openings, openings, openings, ← List.countP_append, List.singleton_append]

theorem closings_cons (brace : Brace) (rest : List Brace) :
    closings (brace :: rest) = closings [brace] + closings rest := by
  rw [closings, closings, closings, ← List.countP_append, List.singleton_append]

/-- One more brace changes the count by what it opens and closes, or closes nothing. -/
theorem tally_cons (depth : Nat) (brace : Brace) (rest : List Brace) :
    (∃ after, tally depth (brace :: rest) = tally after rest ∧
      depth + openings [brace] = after + closings [brace]) ∨
    (depth = 0 ∧ brace.opens = false ∧
      tally depth (brace :: rest) = .error (.unmatched brace.line)) := by
  cases hopens : brace.opens with
  | true =>
      exact Or.inl ⟨depth + 1, tally_open hopens depth rest, by simp [openings, closings, hopens]⟩
  | false =>
      cases depth with
      | zero => exact Or.inr ⟨rfl, rfl, by rw [tally, if_neg (by simp [hopens]), if_pos rfl]⟩
      | succ depth =>
          exact Or.inl ⟨depth, tally_close hopens depth rest, by simp [openings, closings, hopens]⟩

/-- Where the count fails, the closing braces exceed for the first time, with those that were
    open before. -/
theorem tally_eq_error {depth : Nat} {braces : List Brace} {imbalance : Imbalance}
    (h : tally depth braces = .error imbalance) :
    ∃ front brace rest, braces = front ++ brace :: rest ∧ imbalance = .unmatched brace.line ∧
      brace.opens = false ∧ (∀ part, part <+: front → closings part ≤ depth + openings part) ∧
      depth + openings (front ++ [brace]) < closings (front ++ [brace]) := by
  induction braces generalizing depth with
  | nil => simp [tally] at h
  | cons first rest ih =>
      rcases tally_cons depth first rest with ⟨after, htally, hdepth⟩ | ⟨rfl, hclose, htally⟩
      · rw [htally] at h
        rcases ih h with ⟨front, brace, behind, rfl, hline, hclose, hbefore, hexceeds⟩
        refine ⟨first :: front, brace, behind, rfl, hline, hclose, ?_, ?_⟩
        · intro part hpart
          rcases List.prefix_cons_iff.mp hpart with rfl | ⟨part, rfl, hshorter⟩
          · exact Nat.zero_le _
          · have := hbefore part hshorter
            rw [openings_cons, closings_cons]
            omega
        · rw [List.cons_append, openings_cons, closings_cons]
          omega
      · -- Nothing is open, and this brace is the first to close.
        rw [htally, Except.error.injEq] at h
        refine ⟨[], first, rest, rfl, h.symm, hclose, ?_, ?_⟩
        · intro part hpart
          rw [List.prefix_nil.mp hpart]
          exact Nat.zero_le _
        · simp [openings, closings, hclose]

/-- Where the count comes to an end, the closing braces exceed nowhere. -/
theorem tally_eq_ok {depth left : Nat} {braces : List Brace} (h : tally depth braces = .ok left)
    {part : List Brace} (hpart : part <+: braces) :
    closings part ≤ depth + openings part := by
  induction braces generalizing depth part with
  | nil =>
      rw [List.prefix_nil.mp hpart]
      exact Nat.zero_le _
  | cons first rest ih =>
      rcases List.prefix_cons_iff.mp hpart with rfl | ⟨part, rfl, hshorter⟩
      · exact Nat.zero_le _
      · rcases tally_cons depth first rest with ⟨after, htally, hdepth⟩ | ⟨-, -, htally⟩
        · rw [htally] at h
          have := ih h hshorter
          rw [openings_cons, closings_cons]
          omega
        · rw [htally] at h
          simp at h

/-! ## Braces without a partner -/

/-- The opening brace at this place has a partner: a closing brace behind it with nested braces
    in between. -/
def Paired (braces : List Brace) (i : Nat) : Prop :=
  ∃ before first inner last after, braces = before ++ first :: (inner ++ last :: after) ∧
    before.length = i ∧ first.opens = true ∧ last.opens = false ∧ Balanced inner

/-- A brace at this place opens something and has no partner. -/
def Lone (braces : List Brace) (i : Nat) : Prop :=
  (∃ brace, braces[i]? = some brace ∧ brace.opens = true) ∧ ¬ Paired braces i

/-- Nested braces, with a number of opening braces between them that stay open. -/
inductive Opened : Nat → List Brace → Prop where
  | last {braces : List Brace} (h : Balanced braces) : Opened 0 braces
  | more {count : Nat} {brace : Brace} {braces rest : List Brace} (h : Balanced braces)
      (hopen : brace.opens = true) (hrest : Opened count rest) :
      Opened (count + 1) (braces ++ brace :: rest)

theorem balanced_append {braces rest : List Brace} (h : Balanced braces) (hrest : Balanced rest) :
    Balanced (braces ++ rest) := by
  rw [balanced_iff_tally, tally_balanced h, ← balanced_iff_tally]
  exact hrest

theorem Opened.behind {count : Nat} {braces rest : List Brace} (h : Balanced braces)
    (hrest : Opened count rest) : Opened count (braces ++ rest) := by
  cases hrest with
  | last hlast => exact .last (balanced_append h hlast)
  | more hfirst hopen hmore =>
      rw [← List.append_assoc]
      exact .more (balanced_append h hfirst) hopen hmore

/-- Braces that are open before stay open if nothing closes them. -/
theorem tally_add {depth left : Nat} {braces : List Brace} (h : tally depth braces = .ok left)
    (more : Nat) : tally (depth + more) braces = .ok (left + more) := by
  induction braces generalizing depth with
  | nil =>
      rw [tally, Except.ok.injEq] at h ⊢
      rw [h]
  | cons first rest ih =>
      cases hopens : first.opens with
      | true =>
          rw [tally_open hopens] at h ⊢
          rw [Nat.add_right_comm]
          exact ih h
      | false =>
          cases depth with
          | zero => simp [tally, hopens] at h
          | succ depth =>
              rw [tally_close hopens] at h
              rw [Nat.add_right_comm, tally_close hopens]
              exact ih h

/-- A brace that is open before is closed behind nested braces, or nothing before it is closed
    either. -/
theorem tally_succ {depth left : Nat} {braces : List Brace}
    (h : tally (depth + 1) braces = .ok left) :
    (∃ inner brace after, Balanced inner ∧ brace.opens = false ∧
      braces = inner ++ brace :: after ∧ tally depth after = .ok left) ∨
    ∃ least, tally 0 braces = .ok least ∧ left = least + (depth + 1) := by
  induction hlen : braces.length using Nat.strongRecOn generalizing braces depth with
  | ind n ih =>
      cases braces with
      | nil =>
          rw [tally, Except.ok.injEq] at h
          exact Or.inr ⟨0, rfl, by omega⟩
      | cons first rest =>
          rw [List.length_cons] at hlen
          cases hopens : first.opens with
          | false =>
              rw [tally_close hopens] at h
              exact Or.inl ⟨[], first, rest, .nil, hopens, rfl, h⟩
          | true =>
              rw [tally_open hopens] at h
              rcases ih rest.length (by omega) h rfl with
                ⟨inner, brace, after, hinner, hclose, rfl, hafter⟩ | ⟨least, hleast, hleft⟩
              · -- The first brace has its partner, and what follows decides.
                have hnested : ∀ {others : List Brace}, Balanced others →
                    Balanced (first :: inner ++ brace :: others) := fun hothers =>
                  .nested hopens hclose hinner hothers
                have hshort : after.length < n := by
                  rw [← hlen, List.length_append, List.length_cons]
                  omega
                rcases ih _ hshort hafter rfl with
                  ⟨inner', brace', after', hinner', hclose', rfl, hafter'⟩ | ⟨least, hleast, hleft⟩
                · exact Or.inl ⟨_, brace', after', hnested hinner', hclose', by simp, hafter'⟩
                · refine Or.inr ⟨least, ?_, hleft⟩
                  rw [tally_open hopens, tally_balanced hinner, tally_close hclose, hleast]
              · refine Or.inr ⟨least + 1, ?_, by omega⟩
                rw [tally_open hopens]
                exact tally_add hleast 1

/-- What is left open stands between nested braces. -/
theorem opened_of_tally {left : Nat} {braces : List Brace} (h : tally 0 braces = .ok left) :
    Opened left braces := by
  induction hlen : braces.length using Nat.strongRecOn generalizing braces left with
  | ind n ih =>
      cases braces with
      | nil =>
          rw [tally, Except.ok.injEq] at h
          subst h
          exact .last .nil
      | cons first rest =>
          rw [List.length_cons] at hlen
          cases hopens : first.opens with
          | false => simp [tally, hopens] at h
          | true =>
              rw [tally_open hopens] at h
              rcases tally_succ h with
                ⟨inner, brace, after, hinner, hclose, rfl, hafter⟩ | ⟨least, hleast, rfl⟩
              · have hshort : after.length < n := by
                  rw [← hlen, List.length_append, List.length_cons]
                  omega
                have hpiece : Balanced (first :: inner ++ brace :: []) :=
                  .nested hopens hclose hinner .nil
                have hopened := Opened.behind hpiece (ih _ hshort hafter rfl)
                simpa using hopened
              · exact .more .nil hopens (ih rest.length (by omega) hleast rfl)

theorem tally_opened {count : Nat} {braces : List Brace} (h : Opened count braces) :
    tally 0 braces = .ok count := by
  induction h with
  | last h => exact (balanced_iff_tally _).mp h
  | more h hopen _ ih =>
      rw [tally_balanced h, tally_open hopen]
      exact tally_add ih 1

theorem Paired.within {braces : List Brace} {i : Nat} (h : Paired braces i)
    (front back : List Brace) : Paired (front ++ braces ++ back) (front.length + i) := by
  rcases h with ⟨before, first, inner, last, after, rfl, rfl, hfirst, hlast, hinner⟩
  exact ⟨front ++ before, first, inner, last, after ++ back, by simp, by simp, hfirst, hlast,
    hinner⟩

/-- In nested braces every opening brace has a partner. -/
theorem paired_of_balanced {braces : List Brace} (h : Balanced braces) {i : Nat} {brace : Brace}
    (hi : braces[i]? = some brace) (hopens : brace.opens = true) : Paired braces i := by
  induction h generalizing i with
  | nil => simp at hi
  | @nested first last inner rest hfirst hlast hinner _ ihinner ih =>
      rw [List.cons_append] at hi ⊢
      cases i with
      | zero => exact ⟨[], first, inner, last, rest, rfl, rfl, hfirst, hlast, hinner⟩
      | succ i =>
          rw [List.getElem?_cons_succ] at hi
          by_cases hbefore : i < inner.length
          · rw [List.getElem?_append_left hbefore] at hi
            have hpaired := (ihinner hi).within [first] (last :: rest)
            simpa [Nat.add_comm] using hpaired
          · rw [List.getElem?_append_right (by omega)] at hi
            cases hplace : i - inner.length with
            | zero =>
                -- This is the closing brace of the pair.
                rw [hplace, List.getElem?_cons_zero, Option.some.injEq] at hi
                rw [← hi, hlast] at hopens
                exact absurd hopens Bool.false_ne_true
            | succ j =>
                rw [hplace, List.getElem?_cons_succ] at hi
                have hpaired := (ih hi).within (first :: inner ++ [last]) []
                have hi : (first :: inner ++ [last]).length + j = i + 1 := by
                  simp
                  omega
                rw [hi] at hpaired
                simpa using hpaired

/-- What is in front of braces does not matter to them: partners are behind. -/
theorem lone_append (front braces : List Brace) (i : Nat) :
    Lone (front ++ braces) (front.length + i) ↔ Lone braces i := by
  have hplace : (front ++ braces)[front.length + i]? = braces[i]? := by
    rw [List.getElem?_append_right (by omega), Nat.add_sub_cancel_left]
  have hpaired : Paired (front ++ braces) (front.length + i) ↔ Paired braces i := by
    constructor
    · rintro ⟨before, first, inner, last, after, hsame, hlength, hfirst, hlast, hinner⟩
      rcases List.append_eq_append_iff.mp hsame with ⟨between, rfl, hbraces⟩ | ⟨between, hfront, -⟩
      · exact ⟨between, first, inner, last, after, hbraces, by simpa using hlength, hfirst, hlast,
          hinner⟩
      · -- The brace does not stand in front, so nothing is between.
        have hnone : between = [] := by
          rw [← List.length_eq_zero_iff]
          rw [hfront, List.length_append] at hlength
          omega
        rw [hnone, List.append_nil] at hfront
        rw [hfront, List.append_cancel_left_eq] at hsame
        refine ⟨[], first, inner, last, after, hsame, ?_, hfirst, hlast, hinner⟩
        rw [hfront] at hlength
        simp at hlength
        simp [hlength]
    · intro h
      simpa using h.within front []
  rw [Lone, Lone, hplace, hpaired]

/-- A partner would close something behind this brace, where nothing is left to close. -/
theorem lone_of_opened {count : Nat} {brace : Brace} {rest : List Brace}
    (hopens : brace.opens = true) (hrest : Opened count rest) : Lone (brace :: rest) 0 := by
  refine ⟨⟨brace, rfl, hopens⟩, ?_⟩
  rintro ⟨before, first, inner, last, after, hsame, hlength, -, hlast, hinner⟩
  rw [List.length_eq_zero_iff] at hlength
  rw [hlength, List.nil_append, List.cons.injEq] at hsame
  have htally := tally_opened hrest
  rw [hsame.2, tally_balanced hinner, tally, if_neg (by simp [hlast]), if_pos rfl] at htally
  simp at htally

/-- The braces that stay open are those without a partner, so there are as many of them. -/
theorem Opened.lone {count : Nat} {braces : List Brace} (h : Opened count braces) :
    ∃ places : List Nat, places.length = count ∧ places.Pairwise (· < ·) ∧
      ∀ i, i ∈ places ↔ Lone braces i := by
  induction h with
  | last h =>
      refine ⟨[], rfl, .nil, fun i => ?_⟩
      constructor
      · exact fun hi => absurd hi List.not_mem_nil
      · rintro ⟨⟨brace, hi, hopens⟩, hlone⟩
        exact absurd (paired_of_balanced h hi hopens) hlone
  | @more count brace braces rest h hopen hrest ih =>
      rcases ih with ⟨places, hlength, hsorted, hplaces⟩
      -- Behind the nested braces comes the open one, and then the places of the rest.
      refine ⟨braces.length :: places.map (braces.length + 1 + ·), by simp [hlength], ?_, ?_⟩
      · rw [List.pairwise_cons]
        constructor
        · intro i hi
          rcases List.mem_map.mp hi with ⟨j, -, rfl⟩
          omega
        · rw [List.pairwise_map]
          exact hsorted.imp fun hij => by omega
      · intro i
        rw [List.mem_cons, List.mem_map]
        constructor
        · rintro (rfl | ⟨j, hj, rfl⟩)
          · exact (lone_append braces (brace :: rest) 0).mpr (lone_of_opened hopen hrest)
          · have hbehind := lone_append (braces ++ [brace]) rest j
            rw [List.length_append, List.append_assoc] at hbehind
            exact hbehind.mpr ((hplaces j).mp hj)
        · intro hi
          rcases Nat.lt_trichotomy i braces.length with hlt | heq | hgt
          · -- A nested brace has its partner in the same piece.
            rcases hi with ⟨⟨first, hfirst, hopens⟩, hlone⟩
            rw [List.getElem?_append_left hlt] at hfirst
            have hpaired := (paired_of_balanced h hfirst hopens).within [] (brace :: rest)
            exact absurd (by simpa using hpaired) hlone
          · exact Or.inl heq
          · refine Or.inr ⟨i - (braces.length + 1), ?_, by omega⟩
            have hbehind := lone_append (braces ++ [brace]) rest (i - (braces.length + 1))
            rw [List.length_append, List.append_assoc, List.length_singleton,
              Nat.add_sub_cancel' hgt] at hbehind
            exact (hplaces _).mpr (hbehind.mp hi)

/-! ## Refusals -/

/-- A document has one list of braces that count, and they stand in it on their lines. It
    passes exactly if they nest. If closing braces exceed somewhere, the refusal and its wording
    name the line of the first brace that makes them, and else the number of opening braces
    without a partner. -/
theorem checkBraces_blames (document : String) :
    ∃ braces, (∀ other, Counted true 1 document.toList other ↔ other = braces) ∧
      Placed 1 document.toList braces ∧
      (checkBraces document = .ok () ↔ Balanced braces) ∧
      ((∃ part, part <+: braces ∧ Exceeds part) →
        ∃ front brace rest, braces = front ++ brace :: rest ∧ brace.opens = false ∧
          (∀ part, part <+: front → ¬ Exceeds part) ∧ Exceeds (front ++ [brace]) ∧
          checkBraces document = .error (.unmatched brace.line) ∧
          (Imbalance.unmatched brace.line).message =
            "Generated Fusion has an unmatched closing brace on line " ++ toString brace.line) ∧
      ((∀ part, part <+: braces → ¬ Exceeds part) → ¬ Balanced braces →
        ∃ places : List Nat, places.Pairwise (· < ·) ∧ (∀ i, i ∈ places ↔ Lone braces i) ∧
          checkBraces document = .error (.leftOpen places.length) ∧
          (Imbalance.leftOpen places.length).message =
            "Generated Fusion has unbalanced braces: " ++ toString places.length ++
              " left open") := by
  rcases exists_counted true 1 document.toList with ⟨braces, hcounted⟩
  have hcheck : checkBraces document = (tally 0 braces).bind fun left =>
      if left = 0 then .ok () else .error (.leftOpen left) := by
    rcases scan_counted hcounted 0 with ⟨quote, protect, hscan⟩
    rw [if_pos rfl, Scan.restart] at hscan
    rw [checkBraces, hscan]
    cases tally 0 braces <;> rfl
  refine ⟨braces, ?_, hcounted.placed, ?_, ?_, ?_⟩
  · intro other
    constructor
    · intro hother
      rw [hother.eq_listed, hcounted.eq_listed]
    · rintro rfl
      exact hcounted
  · rw [hcheck, balanced_iff_tally]
    cases tally 0 braces with
    | error imbalance => simp [Except.bind]
    | ok left => by_cases hleft : left = 0 <;> simp [Except.bind, hleft]
  · rintro ⟨part, hpart, hexceeds⟩
    cases htally : tally 0 braces with
    | ok left =>
        have hle := tally_eq_ok htally hpart
        rw [Nat.zero_add] at hle
        exact absurd hexceeds (Nat.not_lt.mpr hle)
    | error imbalance =>
        rcases tally_eq_error htally with ⟨front, brace, rest, hsplit, rfl, hclose, hbefore, hafter⟩
        simp only [Nat.zero_add] at hbefore hafter
        refine ⟨front, brace, rest, hsplit, hclose, ?_, hafter, by rw [hcheck, htally]; rfl, rfl⟩
        exact fun part hpart => Nat.not_lt.mpr (hbefore part hpart)
  · intro hnowhere hnested
    cases htally : tally 0 braces with
    | error imbalance =>
        rcases tally_eq_error htally with ⟨front, brace, rest, hsplit, -, -, -, hafter⟩
        rw [Nat.zero_add] at hafter
        refine absurd hafter (hnowhere _ ?_)
        rw [hsplit]
        exact ⟨rest, by simp⟩
    | ok left =>
        rcases (opened_of_tally htally).lone with ⟨places, hlength, hsorted, hplaces⟩
        have hleft : left ≠ 0 := by
          rintro rfl
          exact hnested ((balanced_iff_tally braces).mpr htally)
        refine ⟨places, hsorted, hplaces, ?_, rfl⟩
        rw [hcheck, htally, hlength]
        exact if_neg hleft

/-- A closing brace too many, behind one in a quotation, and an opening brace too many, behind one
    in a comment. -/
theorem checkBraces_blames_either :
    (checkBraces "\x7b'\x7d'\n\x7d\x7d" = .error (.unmatched 2) ∧
      (Imbalance.unmatched 2).message =
        "Generated Fusion has an unmatched closing brace on line 2") ∧
    checkBraces "#\x7b\n\x7b\x7b\x7d" = .error (.leftOpen 1) ∧
      (Imbalance.leftOpen 1).message = "Generated Fusion has unbalanced braces: 1 left open" ∧
      ∃ places : List Nat, places.length = 1 ∧
        ∀ i, i ∈ places ↔ Lone [⟨true, 2⟩, ⟨true, 2⟩, ⟨false, 2⟩] i := by
  constructor
  · rcases checkBraces_blames "\x7b'\x7d'\n\x7d\x7d" with ⟨braces, hcounted, -, -, hexceeds, -⟩
    have hbraces : braces = [⟨true, 1⟩, ⟨false, 2⟩, ⟨false, 2⟩] := by
      rw [((hcounted braces).mpr rfl).eq_listed]
      rfl
    subst hbraces
    rcases hexceeds ⟨_, List.prefix_rfl, by decide⟩ with
      ⟨front, brace, rest, hsplit, hclose, -, -, hcheck, hmessage⟩
    have hmem : brace ∈ front ++ brace :: rest := by simp
    rw [← hsplit] at hmem
    have hline : brace.line = 2 := by
      simp only [List.mem_cons, List.not_mem_nil, or_false] at hmem
      rcases hmem with rfl | rfl | rfl <;> simp_all
    rw [hline] at hcheck hmessage
    exact ⟨hcheck, hmessage⟩
  · rcases checkBraces_blames "#\x7b\n\x7b\x7b\x7d" with ⟨braces, hcounted, -, -, -, hlone⟩
    have hbraces : braces = [⟨true, 2⟩, ⟨true, 2⟩, ⟨false, 2⟩] := by
      rw [((hcounted braces).mpr rfl).eq_listed]
      rfl
    subst hbraces
    have hnowhere : ∀ part, part <+: [⟨true, 2⟩, ⟨true, 2⟩, ⟨false, 2⟩] → ¬ Exceeds part := by
      intro part hpart
      have htally : tally 0 [⟨true, 2⟩, ⟨true, 2⟩, ⟨false, 2⟩] = .ok 1 := rfl
      simpa [Exceeds] using tally_eq_ok htally hpart
    have hopen : ¬ Balanced [⟨true, 2⟩, ⟨true, 2⟩, ⟨false, 2⟩] := by
      rw [balanced_iff_tally]
      simp [tally]
    rcases hlone hnowhere hopen with ⟨places, -, hplaces, hcheck, hmessage⟩
    -- The last brace closes the second, and the first is the one that is left.
    have hone : places.length = 1 := by
      have hleft : checkBraces "#\x7b\n\x7b\x7b\x7d" = .error (.leftOpen 1) := rfl
      rw [hleft, Except.error.injEq, Imbalance.leftOpen.injEq] at hcheck
      exact hcheck.symm
    rw [hone] at hcheck hmessage
    exact ⟨hcheck, hmessage, places, hone, hplaces⟩

end Fusion

end Afx
