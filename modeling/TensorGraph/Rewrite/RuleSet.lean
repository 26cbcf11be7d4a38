import TensorGraph.Rewrite.Basic

/-!
# Sets of rules

Rules are kept in the order in which they were registered, which is the order in which they are
tried. Queries select rules by their tags.
-/

namespace TensorGraph

/-- Selects the rules that have one of the tags in `anyOf`, all in `allOf` and none in `noneOf`. -/
structure RuleQuery where
  anyOf : List String := []
  allOf : List String := []
  noneOf : List String := []
deriving DecidableEq, Repr

/-- Adds tags to the end of a list, unless they are in it. -/
def addTags (list tags : List String) : List String :=
  tags.foldl (fun list tag => if list.contains tag then list else list ++ [tag]) list

namespace RuleQuery

def including (q : RuleQuery) (tags : List String) : RuleQuery :=
  { q with anyOf := addTags q.anyOf tags }

def requiring (q : RuleQuery) (tags : List String) : RuleQuery :=
  { q with allOf := addTags q.allOf tags }

def excluding (q : RuleQuery) (tags : List String) : RuleQuery :=
  { q with noneOf := addTags q.noneOf tags }

def selects (q : RuleQuery) (rule : RewriteRule) : Bool :=
  q.anyOf.any rule.hasTag && q.allOf.all rule.hasTag && !q.noneOf.any rule.hasTag

def text (q : RuleQuery) : String :=
  let part (label : String) (tags : List String) :=
    if tags.isEmpty then "" else " " ++ label ++ " " ++ bracketed tags
  "include " ++ bracketed q.anyOf ++ part "require" q.allOf ++ part "exclude" q.noneOf

end RuleQuery

/-- Rules with different names. -/
structure RuleSet where
  rules : List RewriteRule := []

namespace RuleSet

/-- Adds a rule. It takes the place of a rule with the same name. -/
def register (s : RuleSet) (rule : RewriteRule) : RuleSet :=
  if s.rules.any (·.name == rule.name) then
    { rules := s.rules.map fun other => if other.name == rule.name then rule else other }
  else { rules := s.rules ++ [rule] }

def find? (s : RuleSet) (name : String) : Option RewriteRule := s.rules.find? (·.name == name)

/-- The rules that a query selects. -/
def select (s : RuleSet) (q : RuleQuery) : List RewriteRule := s.rules.filter q.selects

def names (s : RuleSet) : List String := s.rules.map (·.name)

/-- The names and tags of all rules, sorted, each once. -/
def tags (s : RuleSet) : List String :=
  (addTags [] (s.rules.flatMap fun rule => rule.name :: rule.tags)).mergeSort

end RuleSet

end TensorGraph
