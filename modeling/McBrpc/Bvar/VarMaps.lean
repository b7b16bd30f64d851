import McBrpc.Butil.FlatMap

/-!
# The maps of exposed variables

The exposed variables are spread over sub-maps, each behind a mutex.  `Variable::list_exposed` gives
the mutex up after every 256 elements of one pass.  A step is what happens between two acquisitions:
first the calls of other threads, then the scan up to the next release.
-/

namespace McBrpc

/-- An exposed name, as `to_underscored_name` makes it: lower case letters, digits and `_`. -/
abbrev VarName := List Char

/-- `DefaultHasher<std::string>`. -/
def stringHash (s : VarName) : Nat :=
  s.foldl (fun result char => (result * 101 + char.toNat) % 2 ^ 64) 0

def subMapCount : Nat := 32

def subMapIndex (str : VarName) : Nat :=
  str.foldl (fun h char => (h * 5 + char.toNat) % 2 ^ 64) 0 &&& (subMapCount - 1)

/-- `VarEntry`, with what `list_exposed` asks of its variable. -/
structure VarEntry where
  isMetricsVar : Bool
  displayFilter : Nat
  deriving DecidableEq

abbrev VarMap := FlatMap VarName VarEntry

def VarMap.new : VarMap := FlatMap.init stringHash 1024 80

abbrev VarMaps := Nat → VarMap

/-- What `init_var_maps` builds. -/
def initVarMaps : VarMaps := fun _ => VarMap.new

/-- A call of another thread, with the name it has built.  A variable exposed under a second name
is hidden first, which is a call of its own. -/
inductive VarCall where
  | expose (name : VarName) (entry : VarEntry)
  | hide (name : VarName)
  deriving DecidableEq

/-- The effect of a call on the sub-map of its name. -/
def VarCall.onMap : VarCall → VarMap → VarMap
  | expose name entry, m =>
    match m.seek name with
    | none => m.insert name entry
    | some _ => m
  | hide name, m => m.erase name

def VarCall.name : VarCall → VarName
  | expose name _ => name
  | hide name => name

def VarCall.apply (maps : VarMaps) (call : VarCall) : VarMaps :=
  Function.update maps (subMapIndex call.name) (call.onMap (maps (subMapIndex call.name)))

/-- Where `list_exposed` is when it holds no mutex. -/
inductive ScanPoint where
  /-- Before the sub-map with this index; past the last one the call has returned. -/
  | before (subMap : Nat)
  /-- In a yield of the scan of this sub-map. -/
  | within (subMap : Nat) (hint : FlatMap.PositionHint VarName)
  deriving DecidableEq

structure Scan where
  maps : VarMaps
  names : List VarName
  point : ScanPoint

/-- The arguments of `list_exposed`. -/
structure ListArguments where
  displayFilter : Nat
  listMetrics : Bool

namespace ListArguments

variable (args : ListArguments)

def shows (entry : VarEntry) : Bool :=
  (!args.listMetrics || entry.isMetricsVar) && (entry.displayFilter &&& args.displayFilter != 0)

def pushName (names : List VarName) (element : VarName × VarEntry) : List VarName :=
  if args.shows element.2 then names ++ [element.1] else names

/-- The loop over the elements that are left, up to its end or to the next yield: the names, and
the number of elements left at the yield. -/
def pass : Nat → List VarName → List (VarName × VarEntry) → List VarName × Option Nat
  | _, names, [] => (names, none)
  | n, names, element :: rest =>
    if 256 ≤ n + 1 then (names, some (rest.length + 1))
    else pass (n + 1) (args.pushName names element) rest

/-- The scan after a pass over a sub-map. -/
def leave (maps : VarMaps) (subMap : Nat) : List VarName × Option Nat → Scan
  | (names, none) => ⟨maps, names, .before (subMap + 1)⟩
  | (names, some left) =>
    ⟨maps, names,
      .within subMap ((maps subMap).saveIterator ((maps subMap).elements.length - left))⟩

/-- From the acquisition of a mutex to its release. -/
def advance (scan : Scan) : Scan :=
  match scan.point with
  | .before subMap =>
    if subMap < subMapCount then
      leave scan.maps subMap (args.pass 0 scan.names (scan.maps subMap).elements)
    else scan
  | .within subMap hint =>
    let m := scan.maps subMap
    let it := m.restoreIterator hint
    let names := if it = 0 then [] else scan.names
    match m.elements.drop it with
    | [] => ⟨scan.maps, names, .before (subMap + 1)⟩
    | element :: rest =>
      leave scan.maps subMap (args.pass 0 (args.pushName names element) rest)

/-- The calls other threads make while no mutex is held, then the scan up to the next release. -/
def step (scan : Scan) (calls : List VarCall) : Scan :=
  args.advance { scan with maps := calls.foldl VarCall.apply scan.maps }

end ListArguments

/-- `list_exposed` on entry. -/
def Scan.start (maps : VarMaps) : Scan := ⟨maps, [], .before 0⟩

def Scan.Returned (scan : Scan) : Prop := scan.point = .before subMapCount

end McBrpc
