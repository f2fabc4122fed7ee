import Afx.Data.Basic
import Afx.Markup.Fault

/-!
# Faults of a Conversion

Markup that was read can still be impossible to render: directives take texts,
spreads take expressions, and only some kinds of values and attributes have a
rendering. A conversion fails if its source cannot be read, if what was read
cannot be rendered, or if the settings give an indentation that cannot be
stacked or written out.

## Main definitions

* `Fault`: Why markup cannot be rendered.
* `Fault.message`: The wording of each cause.
* `Failure`: Why a source cannot be converted.
-/

namespace Afx

namespace Fusion

/-- Why markup cannot be rendered. Kinds are given by their names. -/
inductive Fault where
  /-- A directive whose value is no text. -/
  | directivePayload (directive kind : String)
  /-- A spread of something else than an expression. -/
  | spreadPayload (kind : String)
  /-- A kind that is no attribute. -/
  | unknownAttribute (kind : String)
  /-- A kind that is no value. -/
  | unknownValue (kind : String)
  /-- Markup nested more deeply than the renderer follows. -/
  | nestedTooDeeply
  deriving DecidableEq, Repr

/-- The wording of a cause. -/
def Fault.message : Fault → String
  | directivePayload directive kind =>
    directive ++ " only supports string payloads, " ++ kind ++ " found"
  | spreadPayload kind => "Spreads only support expression payloads, " ++ kind ++ " found"
  | unknownAttribute kind => "Attribute type " ++ kind ++ " is unknown"
  | unknownValue kind => "AST type " ++ kind ++ " is unknown"
  | nestedTooDeeply => "AFX nodes are nested too deeply to generate Fusion"

/-- Why a source cannot be converted. -/
inductive Failure where
  /-- The source, as it was read, has a fault. -/
  | unreadable (source : List Char) (fault : Markup.Fault)
  /-- What was read cannot be rendered. -/
  | unrenderable (fault : Fault)
  /-- A level of indentation cannot be added to the one above it. -/
  | unstackable (fault : Datum.SumFault)
  /-- A level of indentation is too long a number to be written out. -/
  | unwritable
  deriving DecidableEq, Repr

end Fusion

end Afx
