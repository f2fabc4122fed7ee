import Afx.Data.Basic

/-!
# Stacked Indentation

Every level of a tree is indented by what the level above it has, plus one
unit. Both the base and the unit are settings data. As a rule they are texts,
which are appended; numbers are added up, and a base and a unit that have no
sum allow no level but the first. Numbers that grow too long to be written out
end the levels as well.

## Main definitions

* `Indentation`: The base and the unit.
* `Indentation.level?`: The indentation of a level, as data.
* `Indentation.stacked`: Why there is no level but the first.
* `Indentation.isWritable`: Whether a level can be written out.
* `Indentation.margin`: The indentation of a level, as text.

## Theorems

* `Indentation.margin_text`: Texts are appended.
* `Indentation.isWritable_text`: A level of texts can always be written out.
-/

namespace Afx

namespace Fusion

/-- Where indentation starts and what every level adds. -/
structure Indentation where
  base : Datum
  unit : Datum

namespace Indentation

/-- The indentation of a level, unless the base and the unit have no sum. -/
def level? (i : Indentation) : Nat → Option Datum
  | 0 => some i.base
  | n + 1 => (i.level? n).bind fun above => (above.plus i.unit).toOption

/-- The first level above the base, or why there is none. -/
def stacked (i : Indentation) : Except Datum.SumFault Datum :=
  i.base.plus i.unit

/-- Whether a level can be written out. -/
def isWritable (i : Indentation) (n : Nat) : Bool :=
  ((i.level? n).getD i.base).isWritable

/-- The indentation of a level, written out. -/
def margin (i : Indentation) (n : Nat) : String :=
  ((i.level? n).getD i.base).display

/-- A text repeated. -/
def repeated (s : String) : Nat → String
  | 0 => ""
  | n + 1 => repeated s n ++ s

theorem level?_text (s t : String) (n : Nat) :
    (Indentation.mk (.text s) (.text t)).level? n = some (.text (s ++ repeated t n)) := by
  induction n with
  | zero => simp [level?, repeated]
  | succ n ih => simp [level?, ih, repeated, Datum.plus, Except.toOption, String.append_assoc]

theorem margin_text (s t : String) (n : Nat) :
    (Indentation.mk (.text s) (.text t)).margin n = s ++ repeated t n := by
  rw [margin, level?_text]
  rfl

theorem margin_text_zero (s t : String) : (Indentation.mk (.text s) (.text t)).margin 0 = s := by
  rw [margin_text, repeated, String.append_empty]

theorem isWritable_text (s t : String) (n : Nat) :
    (Indentation.mk (.text s) (.text t)).isWritable n = true := by
  rw [isWritable, level?_text]
  rfl

end Indentation

end Fusion

end Afx
