import EncryptedSpaces.Encoding.Values

/-!
# Access rules and actions

The predicate trees stored in authenticated state and their evaluation on one
row.  An assertion extends a rule with `exists(table, …)`, whose evaluation needs
reads and therefore lives with the operation verifiers.
-/

namespace EncryptedSpaces.Acl

open Encoding

inductive ComparisonOp where
  | equal
  | notEqual
  | less
  | lessEqual
  | greater
  | greaterEqual
  deriving DecidableEq, Repr

def ComparisonOp.holds : ComparisonOp → Int → Int → Bool
  | .equal, l, r => l == r
  | .notEqual, l, r => l != r
  | .less, l, r => l < r
  | .lessEqual, l, r => l ≤ r
  | .greater, l, r => r < l
  | .greaterEqual, l, r => r ≤ l

/-- `row.<col>` or `self.<col>`. -/
inductive ColumnNamespace where
  | resource
  | selfRow
  deriving DecidableEq, Repr

inductive RuleValue where
  | int (i : Int)
  | authUserId
  | column (ns : ColumnNamespace) (name : String)
  deriving DecidableEq, Repr

inductive AccessRule where
  | comparison (left : RuleValue) (op : ComparisonOp) (right : RuleValue)
  | and (left right : AccessRule)
  | or (left right : AccessRule)
  | not (inner : AccessRule)
  deriving DecidableEq, Repr

inductive Assertion where
  | rule (r : AccessRule)
  | exists_ (table : String) (predicate : AccessRule)
  | and (left right : Assertion)
  | or (left right : Assertion)
  | not (inner : Assertion)
  deriving DecidableEq, Repr

inductive ActionLeg where
  | insert (table : String)
  | update (table : String) (cols : Option (List String))
  | delete (table : String)
  | cascadeDelete (table whereColumn whereSelfColumn : String)
  deriving DecidableEq, Repr

def ActionLeg.table : ActionLeg → String
  | .insert table | .update table _ | .delete table | .cascadeDelete table _ _ => table

def ActionLeg.isCascade : ActionLeg → Bool
  | .cascadeDelete .. => true
  | _ => false

structure Action where
  name : String
  asserts : List Assertion
  legs : List ActionLeg
  deriving DecidableEq, Repr

/-- The stored form of an action; its name is the storage key. -/
structure ActionBody where
  asserts : List Assertion
  legs : List ActionLeg
  deriving DecidableEq, Repr

def ActionBody.intoAction (body : ActionBody) (name : String) : Action :=
  { name, asserts := body.asserts, legs := body.legs }

/-- A column of a JSON row; later bindings of a name replace earlier ones. -/
def rowColumn (row : List (String × Value)) (name : String) : Option Value :=
  (row.reverse.find? (·.1 = name)).map (·.2)

/-- `resolve_value` for an access rule, which has a resource row and no self
row.  A missing or null column is no value; any other non-integer is an error. -/
def resolveValue (uid : Option Int) (resource : List (String × Value)) :
    RuleValue → Except String (Option Int)
  | .int i => .ok (some i)
  | .authUserId => .ok uid
  | .column .resource name =>
    match rowColumn resource name with
    | none => .ok none
    | some v =>
      if v.isNull then .ok none
      else
        match v.asI64 with
        | some i => .ok (some i)
        | none => .error s!"resource column '{name}' is not an integer"
  | .column .selfRow name => .error s!"`self.{name}` referenced outside an action-assertion context"

/-- `AccessRule::evaluate`; a comparison with a missing operand is false. -/
def AccessRule.evaluate (uid : Option Int) (resource : List (String × Value)) :
    AccessRule → Except String Bool
  | .comparison left op right => do
      let l ← resolveValue uid resource left
      let r ← resolveValue uid resource right
      match l, r with
      | some l, some r => return op.holds l r
      | _, _ => return false
  | .and left right => do
      if ← left.evaluate uid resource then right.evaluate uid resource else return false
  | .or left right => do
      if ← left.evaluate uid resource then return true else right.evaluate uid resource
  | .not inner => do return !(← inner.evaluate uid resource)

def RuleValue.resourceColumn : RuleValue → List String
  | .column .resource name => [name]
  | _ => []

/-- `collect_resource_columns`. -/
def AccessRule.resourceColumns : AccessRule → List String
  | .comparison left _ right => left.resourceColumn ++ right.resourceColumn
  | .and left right | .or left right => left.resourceColumns ++ right.resourceColumns
  | .not inner => inner.resourceColumns

end EncryptedSpaces.Acl
