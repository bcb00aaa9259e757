/-
Log rows and the selectors over them: the label matchers, line filters and pipeline stages of a query.

A regular expression is a test of strings; the engine that compiles one is not part of the model.
-/
import Mathlib

namespace Signy

open Std (ExtTreeMap)

structure LogEntry where
  timestampNs : Int
  line : String
  structuredMetadata : List (String × String)
deriving DecidableEq

/-- The fields of a row by name. -/
abbrev Labels : Type := ExtTreeMap String String compare

structure Regex where
  isMatch : String → Bool

inductive MatcherOp
  | eq
  | neq
  | re
  | nre
deriving DecidableEq

/-- The expression is there for `re` and `nre`. -/
structure LabelMatcher where
  name : String
  op : MatcherOp
  value : String
  regex : Option Regex

/-- A row without the label is matched as if the label were empty. -/
def LabelMatcher.matches (matcher : LabelMatcher) (labels : Labels) : Bool :=
  let actual := labels.getD matcher.name ""
  match matcher.op with
  | .eq => actual = matcher.value
  | .neq => actual ≠ matcher.value
  | .re => matcher.regex.any (·.isMatch actual)
  | .nre => matcher.regex.all fun re => !re.isMatch actual

inductive LineFilter
  | contains (text : String)
  | notContains (text : String)
  | regex (re : Regex)
  | notRegex (re : Regex)

def LineFilter.matches (line : String) : LineFilter → Bool
  | contains text => text.toList <:+: line.toList
  | notContains text => ¬ text.toList <:+: line.toList
  | regex re => re.isMatch line
  | notRegex re => !re.isMatch line

inductive FieldOp
  | eq
  | neq
  | regex
  | notRegex
  | lt
  | lte
  | gt
  | gte
deriving DecidableEq

/-- `coefficient · 10 ^ (-scale)` -/
structure Decimal where
  coefficient : Int
  scale : Int
deriving DecidableEq

inductive FieldValue
  | string (value : String)
  | regex (re : Regex)
  | number (value : Decimal)
  | duration (ns : Int)

structure FieldFilter where
  name : String
  op : FieldOp
  value : FieldValue

inductive PipelineStage
  | line (filter : LineFilter)
  | json
  | logfmt
  | field (filter : FieldFilter)

structure LogQuery where
  matchers : List LabelMatcher
  lineFilters : List LineFilter
  stages : List PipelineStage

end Signy
