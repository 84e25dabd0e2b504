import Lox.Toml.Read
import Std.Data.HashSet

/-!
The tables that the statements of a TOML text build up, and all keys in the order of the text. A key
may be given a value once; a table that was only implied by the keys inside it may be given a header
later. A key that was given an array may be given a table in its place, once something inside it is
named.
-/

namespace Lox.Toml

inductive Node where
  | leaf (item : Item)
  | table (entries : List (Bytes × Node))
  -- A list of tables, the last one first.
  | tables (elements : List (List (Bytes × Node)))
deriving Inhabited

abbrev Entries := List (Bytes × Node)

namespace Node

def entries? : Node → Option Entries
  | leaf _ => none
  | table es => some es
  | tables [] => some []
  | tables (es :: _) => some es

def withEntries (es : Entries) : Node → Node
  | tables (_ :: rest) => .tables (es :: rest)
  | tables [] => .tables [es]
  | _ => .table es

end Node

def putEntry (key : Bytes) (node : Node) : Entries → Entries
  | [] => [(key, node)]
  | (k, v) :: rest => if k = key then (k, node) :: rest else (k, v) :: putEntry key node rest

structure Document where
  root : Entries := []
  implied : Std.HashSet Key := {}
  arrays : Std.HashSet Key := {}
  -- The keys of the text, last one first.
  order : List Key := []

abbrev Builder := StateT Document Option

namespace Builder

def changeAt (f : Entries → Option Entries) : Key → Entries → Option Entries
  | [], es => f es
  | k :: rest, es => do
    let node ← es.lookup k
    let inner ← node.entries?
    return putEntry k (node.withEntries (← changeAt f rest inner)) es

def entriesAt : Key → Entries → Option Entries
  | [], es => some es
  | k :: rest, es => do entriesAt rest (← (← es.lookup k).entries?)

def change (path : Key) (f : Entries → Option Entries) : Builder Unit := do
  let d ← get
  let root ← changeAt f path d.root
  set { d with root }

def imply (key : Key) : Builder Unit :=
  modify fun d => { d with implied := d.implied.insert key }

def settle (key : Key) : Builder Unit :=
  modify fun d => { d with implied := d.implied.erase key }

def notedKey (path : Key) (name : Bytes) : Key :=
  if !name.isEmpty then path ++ [name] else if path.isEmpty then [name] else path

def note (key : Key) (isArray : Bool) : Builder Unit :=
  modify fun d => { d with arrays := if isArray then d.arrays.insert key else d.arrays.erase key }

/-- Binds a name in the table at a path. A name that is bound already must be implied; it keeps its
table, and loses its array. -/
def setValue (path : Key) (name : Bytes) (node : Node) : Builder Unit := do
  let d ← get
  let es ← entriesAt path d.root
  let full := path ++ [name]
  if (es.lookup name).isNone then change path fun es => some (putEntry name node es)
  else
    unless d.implied.contains full do failure
    settle full
    if d.arrays.contains full then change path fun es => some (putEntry name node es)

/-- The entries with a table for each part of a key but the last, and the keys of the tables that
were not there yet; `path` is that of the entries, last part first. -/
def withParents (path : Key) : Key → Entries → Option (Entries × List Key)
  | [], es | [_], es => some (es, [])
  | k :: rest, es => do
    match es.lookup k with
    | none =>
      let (inner, made) ← withParents (k :: path) rest []
      return (putEntry k (.table inner) es, (k :: path).reverse :: made)
    | some node =>
      let (inner, made) ← withParents (k :: path) rest (← node.entries?)
      return (putEntry k (node.withEntries inner) es, made)

def implyParents (key : Key) : Builder Unit := do
  let d ← get
  let (root, made) ← withParents [] key d.root
  set { d with root }
  made.forM imply

def enter (key : Key) (inList : Bool) : Builder Unit := do
  implyParents key
  let path := key.dropLast
  let last := key.getLast?.getD []
  if inList then
    change path fun es =>
      match es.lookup last with
      | none => some (putEntry last (.tables [[]]) es)
      | some (.tables ts) => some (putEntry last (.tables ([] :: ts)) es)
      | some _ => none
  else setValue path last (.table [])

def enterDotted (path : Key) : Key → Builder Key
  | [] => return path
  | k :: rest => do
    let full := path ++ [k]
    imply full
    enter full false
    enterDotted full rest

def record (key : Key) : Builder Unit :=
  modify fun d => { d with order := key :: d.order }

def putDotted (node : Node) : Key → Entries → Option Entries
  | [], es => some es
  | [k], es => some (putEntry k node es)
  | k :: rest, es => do
    let inner ← match es.lookup k with
      | none => some []
      | some (.table inner) => some inner
      | some _ => none
    return putEntry k (.table (← putDotted node rest inner)) es

def define (place : Key → Bytes → Item → Builder Node) (path key : Key) (item : Item) :
    Builder Node := do
  let inner ← enterDotted path key.dropLast
  let name := key.getLast?.getD []
  record (inner ++ [name])
  let node ← place inner name item
  setValue inner name node
  note (notedKey inner name) item.isArray
  return node

def place : Nat → Bool → Key → Bytes → Item → Builder Node
  | 0, _, _, _, _ => failure
  | fuel + 1, inArray, path, name, item => do
    match item with
    | .array items =>
      note (notedKey path name) true
      items.forM fun x => do
        let _ ← place fuel true path name x
      return .leaf item
    | .table entries =>
      let full := path ++ [name]
      imply full
      enter full inArray
      let own ← entries.foldlM (fun own (key, x) => do
        putDotted (← define (place fuel false) full key x) key own) []
      return .table own
    | _ => return .leaf item

def statement (fuel : Nat) (path : Key) : Statement → Builder Key
  | .header key => do
    enter key false
    note key false
    record key
    return key
  | .arrayHeader key => do
    enter key true
    note key false
    record key
    return key
  | .assign key item => do
    let _ ← define (place fuel false) path key item
    return path

end Builder

def read? (text : Bytes) : Option Document := do
  let found ← statements? text
  let build := found.foldlM (Builder.statement (text.length + 1)) ([] : Key)
  let (_, d) ← build {}
  return { d with order := d.order.reverse }

def Document.table? (d : Document) (name : Bytes) : Option Entries :=
  match d.root.lookup name with
  | some (.table es) => some es
  | _ => none

def Document.contains (d : Document) : Key → Bool
  | [s] => (d.root.lookup s).isSome
  | [s, name] => ((d.table? s).bind (·.lookup name)).isSome
  | _ => false

end Lox.Toml
