import PropertyIndex.Direction

/-!
# Errors

* `ErrorKind`       the five kinds, the text of each, and which of them is fatal;
* `Corruption`      what can be wrong with the chain of an ordered index;
* `Error`           every cause of a failure, with its kind and message.
-/

namespace PropertyIndex

inductive ErrorKind where
  | chainCorruption
  | iteratorExhausted
  | unsupportedMutation
  | invalidKey
  | invalidConfig
deriving DecidableEq, Repr

namespace ErrorKind

/-- the text of an error of a kind, from what it says in detail -/
def render (k : ErrorKind) (detail : String) : String :=
  match k with
  | .chainCorruption => "Chain corruption: " ++ detail
  | .iteratorExhausted => "Iterator exhausted"
  | .unsupportedMutation => "Unsupported mutation: " ++ detail
  | .invalidKey => "Invalid key: " ++ detail
  | .invalidConfig => "Invalid config: " ++ detail

/-- a fatal error means that the enclosing mutation has to be given up -/
def isFatal : ErrorKind → Bool
  | .chainCorruption => true
  | _ => false

end ErrorKind

/-- what can be wrong with the chain of an ordered index -/
inductive Corruption where
  /-- the walk took more hops than the index has nodes -/
  | tooLong (nodes : Nat) (key : String)
  /-- a pointer names a node that is not there -/
  | missingEntry (key : String)
  /-- the walk ended without a place for the key -/
  | noInsertionPoint (key : String)
  /-- an entry that no walk meets -/
  | unreachable (key : String)
  /-- a node without a pointer of its own -/
  | outsideChain (key : String)
  /-- the head of the chain holds matches -/
  | markedHead
  /-- two neighbours in the wrong order -/
  | outOfOrder (previous key : String) (direction : Direction)
  /-- an entry that is met a second time -/
  | chainedTwice (key : String)
  /-- an entry without any match -/
  | unmatched (key : String)
deriving DecidableEq, Repr

def Corruption.detail : Corruption → String
  | .tooLong n key =>
    "chain longer than the " ++ toString n ++ " nodes of the index at '" ++ key ++ "'"
  | .missingEntry key => "chain points to missing entry '" ++ key ++ "'"
  | .noInsertionPoint key => "no insertion point for '" ++ key ++ "'"
  | .unreachable key => "entry '" ++ key ++ "' is not reachable from :start"
  | .outsideChain key => "node '" ++ key ++ "' exists outside the chain"
  | .markedHead => "sentinel carries match data"
  | .outOfOrder a b d => "'" ++ a ++ "' and '" ++ b ++ "' are out of " ++ d.label ++ " order"
  | .chainedTwice key => "'" ++ key ++ "' is chained twice"
  | .unmatched key => "chained entry '" ++ key ++ "' has no match"

/-- every cause of a failure -/
inductive Error where
  /-- the chain of an ordered index is broken -/
  | corruption (c : Corruption)
  /-- an element was asked for after the end of a walk -/
  | exhausted
  /-- a walk cannot take entries out -/
  | readOnlyWalk
  /-- the empty text is no key -/
  | emptyKey
  /-- a key is the name of one node, without a slash -/
  | compoundKey (key : String)
  /-- the name belongs to the index itself -/
  | reservedKey (key : String)
  /-- the bytes that a key stands for are no text -/
  | illFormedKey (key : String)
  /-- keys would be cut to nothing -/
  | zeroKeyLength
  /-- an index lists the empty property name -/
  | emptyPropertyName (index : String)
  /-- no direction is spelled so -/
  | unknownDirection (text : String)
deriving DecidableEq, Repr

namespace Error

def kind : Error → ErrorKind
  | .corruption _ => .chainCorruption
  | .exhausted => .iteratorExhausted
  | .readOnlyWalk => .unsupportedMutation
  | .emptyKey => .invalidKey
  | .compoundKey _ => .invalidKey
  | .reservedKey _ => .invalidKey
  | .illFormedKey _ => .invalidKey
  | .zeroKeyLength => .invalidConfig
  | .emptyPropertyName _ => .invalidConfig
  | .unknownDirection _ => .invalidConfig

/-- what an error says beside its kind -/
def detail : Error → String
  | .corruption c => c.detail
  | .exhausted => ""
  | .readOnlyWalk => "entries cannot be removed through an ordered traversal"
  | .emptyKey => "key must not be empty"
  | .compoundKey key => "'" ++ key ++ "' is not a single node name"
  | .reservedKey key => "'" ++ key ++ "' is reserved"
  | .illFormedKey key => "'" ++ key ++ "' is not valid UTF-8"
  | .zeroKeyLength => "max_key_length must be positive"
  | .emptyPropertyName index => "index '" ++ index ++ "' has an empty property name"
  | .unknownDirection text => "unknown order direction '" ++ text ++ "'"

def message (e : Error) : String := e.kind.render e.detail

/-- a fatal error means that the enclosing mutation has to be given up -/
def isFatal (e : Error) : Bool := e.kind.isFatal

theorem isFatal_iff {e : Error} : e.isFatal = true ↔ ∃ c, e = .corruption c := by
  cases e <;> simp [isFatal, kind, ErrorKind.isFatal]

end Error

end PropertyIndex
