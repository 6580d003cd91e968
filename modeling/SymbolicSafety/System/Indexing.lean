import SymbolicSafety.Foundation.SortedMap
import SymbolicSafety.Variable

namespace SymbolicSafety

/-! Which version of each variable is current. All variables, even those not
yet thought of, have the default version unless an entry says otherwise. -/

/-- A version for every variable. Only versions other than the default are
entered, so indexings that agree everywhere are equal. -/
structure Indexing where
  default : UInt32
  entries : SortedMap Variable UInt32
  informative : ∀ entry ∈ entries.entries, entry.2 ≠ default

structure NegativeIndex where
  var : Option Variable
  left : UInt32
  right : UInt32
  deriving DecidableEq, Repr

def NegativeIndex.message (fault : NegativeIndex) : String :=
  let name := match fault.var with
    | some var => var.name
    | none => "_"
  "Index of `" ++ name ++ "` would become negative (" ++ fault.left.toNat.repr ++ " - "
    ++ fault.right.toNat.repr ++ ")."

namespace Indexing

def normalized (default : UInt32) (entries : SortedMap Variable UInt32) : Indexing where
  default
  entries := entries.filter fun _ index => index ≠ default
  informative entry member := by
    have kept := (List.mem_filter.mp member).2
    simpa using kept

instance : DecidableEq Indexing := fun left right =>
  if equal : left.default = right.default ∧ left.entries = right.entries then
    .isTrue (by cases left; cases right; simpa using equal)
  else
    .isFalse fun same => equal (same ▸ ⟨rfl, rfl⟩)

def all (index : UInt32) : Indexing := normalized index SortedMap.empty

def get (indexing : Indexing) (var : Variable) : UInt32 :=
  (indexing.entries.get? var).getD indexing.default

def set (indexing : Indexing) (var : Variable) (index : UInt32) : Indexing :=
  normalized indexing.default (indexing.entries.insert var index)

def next? (indexing : Indexing) (var : Variable) : Option Indexing := do
  pure (indexing.set var (← Version.add? (indexing.get var) 1))

def entered (left right : Indexing) : List Variable := left.entries.keys ++ right.entries.keys

def pointwise? (combine : UInt32 → UInt32 → Option UInt32) (left right : Indexing) :
    Option Indexing := do
  let default ← combine left.default right.default
  let entries ← (left.entered right).mapM fun var => do
    pure (var, ← combine (left.get var) (right.get var))
  pure (normalized default (SortedMap.ofList entries))

def add? : Indexing → Indexing → Option Indexing := pointwise? Version.add?

def join (left right : Indexing) : Indexing :=
  normalized (max left.default right.default)
    (SortedMap.ofList ((left.entered right).map fun var =>
      (var, max (left.get var) (right.get var))))

/-- The difference. The first negative version is reported, the default before
any variable. -/
def sub (left right : Indexing) : Except NegativeIndex Indexing :=
  if left.default < right.default then
    .error ⟨none, left.default, right.default⟩
  else
    match (left.entered right).find? fun var => left.get var < right.get var with
    | some var => .error ⟨some var, left.get var, right.get var⟩
    | none =>
        .ok (normalized (left.default - right.default)
          (SortedMap.ofList ((left.entered right).map fun var =>
            (var, left.get var - right.get var))))

def text (indexing : Indexing) : String :=
  "\x7b" ++ String.join (indexing.entries.entries.map fun entry =>
    entry.1.name ++ ": " ++ entry.2.toNat.repr ++ ", ")
    ++ "_: " ++ indexing.default.toNat.repr ++ "\x7d"

end Indexing

end SymbolicSafety
