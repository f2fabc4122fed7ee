import Afx.Data.Basic

/-!
# Markup Values

AFX mixes tags with expressions, text and comments. A source is read as an
ordered list of such values, and a tag carries attributes, which are named
props and spreads. Trees are also built by hand, so any value may stand in any
place, plain data that is no markup at all included; what cannot be rendered
where it stands is reported by the name of its kind.

A *group* never comes from a source. It collects the props behind a spread,
so that they are rendered together.

## Main definitions

* `Markup`: A value of AFX, an attribute, or foreign data.
* `Markup.kindName`: The name of a value's kind in messages.
* `Markup.isMeta`: Whether a name belongs to a directive or meta path.
* `Markup.isPrototype`: Whether a tag name refers to a prototype.
* `Markup.lastProp?`: The prop that counts among those of one name.
-/

namespace Afx

/-- A value of AFX, an attribute, or foreign data. -/
inductive Markup where
  /-- An expression, written between braces. -/
  | expression (code : String)
  /-- A quoted attribute value. -/
  | literal (value : String)
  /-- Text between tags, with its blanks as they stand in the source. -/
  | text (raw : String)
  /-- The value of an attribute that is only named. -/
  | flag (value : Bool)
  /-- A comment, which is never rendered. -/
  | comment (content : String)
  /-- A tag with its attributes and the values between its two ends. -/
  | element (name : String) (selfClosing : Bool) (attributes children : List Markup)
  /-- A named attribute. -/
  | prop (name : String) (value : Markup)
  /-- An attribute that merges in all properties of a value. -/
  | spread (value : Markup)
  /-- The props behind a spread. -/
  | group (props : List (String × Markup))
  /-- Data that is no markup. -/
  | foreign (value : Datum)
  deriving Inhabited

namespace Markup

/-- The name of a value's kind in messages. -/
def kindName : Markup → String
  | expression _ => "expression"
  | literal _ => "string"
  | text _ => "text"
  | flag _ => "boolean"
  | comment _ => "comment"
  | element .. => "node"
  | prop .. => "prop"
  | spread _ => "spread"
  | group _ => "propList"
  | foreign value => value.kindName

/-- A name that starts with an at sign belongs to a directive or a meta path. -/
def isMeta (name : String) : Bool :=
  name.toList.head? == some '@'

/-- A tag name with a colon refers to a prototype. -/
def isPrototype (name : String) : Bool :=
  name.toList.contains ':'

/-- The value of an attribute if it is a prop of this name. -/
def valueOf? (name : String) : Markup → Option Markup
  | prop other value => if other == name then some value else none
  | _ => none

/-- Of several props with one name the last counts: its value. -/
def lastProp? (name : String) (attributes : List Markup) : Option Markup :=
  (attributes.filterMap (valueOf? name)).getLast?

end Markup

end Afx
