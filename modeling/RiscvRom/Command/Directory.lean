import RiscvRom.Command.Path
import RiscvRom.Text.Numeral
import RiscvRom.Text.Order

/-! Files and folders as the program finds them, as a value.

Looking up a path goes from piece to piece, and each piece before the last has to be a folder. A
piece is looked up as a name in the folder before it, so a name that is too long fails only there.
Folders above the working directory exist, but hold nothing that is known, and so does the root.
-/

namespace RiscvRom

/-- Why a file cannot be read or written: the system's text and number for it. -/
structure StoreError where
  detail : Text
  code : Nat
  deriving DecidableEq

namespace StoreError

def notFound : StoreError := ⟨"No such file or directory".toList, 2⟩
def notDirectory : StoreError := ⟨"Not a directory".toList, 20⟩
def isDirectory : StoreError := ⟨"Is a directory".toList, 21⟩
def nameTooLong : StoreError := ⟨"File name too long".toList, 36⟩

def message (e : StoreError) : Text :=
  e.detail ++ " (os error ".toList ++ Text.decimal e.code ++ ")".toList

end StoreError

/-- Where a location starts: the root, or so many levels above the working directory. -/
inductive Anchor where
  | root
  | above (levels : Nat)
  deriving DecidableEq

structure Location where
  anchor : Anchor
  names : List Bytes
  deriving DecidableEq

namespace Location

def working : Location := ⟨.above 0, []⟩

def parent (l : Location) : Location :=
  match l.names, l.anchor with
  | [], .root => l
  | [], .above n => ⟨.above (n + 1), []⟩
  | names, anchor => ⟨anchor, names.dropLast⟩

/-- One piece of a path further. -/
def move (l : Location) (piece : Bytes) : Location :=
  if Path.isIdle piece then l
  else if Path.isParent piece then l.parent
  else ⟨l.anchor, l.names ++ [piece]⟩

/-- Where a path starts. -/
def start (p : Path) : Location := if p.head? = some Path.slash then ⟨.root, []⟩ else working

end Location

inductive Node where
  | folder
  | file (content : Bytes)
  deriving DecidableEq

/-- What stands at each known location. -/
abbrev Directory := List (Location × Node)

namespace Directory

/-- An anchor itself is always a folder. -/
def node? (d : Directory) (l : Location) : Option Node :=
  if l.names = [] then some .folder else (List.find? (·.1 == l) d).map (·.2)

def put (d : Directory) (l : Location) (n : Node) : Directory :=
  (l, n) :: List.filter (·.1 != l) d

/-- The most bytes that one name may have. -/
def nameLimit : Nat := 255

/-- The least number of bytes that is too much for a whole path. -/
def pathLimit : Nat := 4096

/-- Follows the pieces of a path; the location that it ends at need not exist. -/
def walk (d : Directory) : Location → List Bytes → Except StoreError Location
  | l, [] => .ok l
  | l, piece :: rest =>
    match d.node? l with
    | none => .error .notFound
    | some (.file _) => .error .notDirectory
    | some .folder =>
      if nameLimit < piece.length then .error .nameTooLong else walk d (l.move piece) rest

/-- Follows the given pieces from where a path starts, if a path may be as long as this one. -/
def follow (d : Directory) (p : Path) (pieces : List Bytes) : Except StoreError Location :=
  if p = [] then .error .notFound
  else if pathLimit ≤ p.length then .error .nameTooLong
  else d.walk (.start p) pieces

def read (d : Directory) (p : Path) : Except StoreError Bytes :=
  match d.follow p (Path.pieces p) with
  | .error e => .error e
  | .ok l =>
    match d.node? l with
    | none => .error .notFound
    | some .folder => .error .isDirectory
    | some (.file content) => .ok content

/-- Writes a whole file or fails and changes nothing. A name with a slash behind it asks for a
folder, whatever stands there: only the way to it is followed, up to the folder that it is in. -/
def write (d : Directory) (p : Path) (content : Bytes) : Except StoreError Directory :=
  if p.getLast? = some Path.slash then
    let way := ((Path.pieces p).reverse.dropWhile (· == [])).tail.reverse
    match d.follow p (way ++ [[]]) with
    | .error e => .error e
    | .ok _ => .error .isDirectory
  else
    match d.follow p (Path.pieces p) with
    | .error e => .error e
    | .ok l =>
      if d.node? l = some .folder then .error .isDirectory else .ok (d.put l (.file content))

/-- The locations that a path passes, with the one that it ends at as the last. -/
def passed (l : Location) : List Bytes → List Location
  | [] => []
  | piece :: rest => l.move piece :: passed (l.move piece) rest

/-- Adds a file, or a folder where there is no content. Every location on the way becomes a folder,
also one that the path leaves again by a double dot. -/
def add (d : Directory) (p : Path) (content : Option Bytes) : Directory :=
  let way := passed (.start p) (Path.pieces p)
  let d := way.dropLast.foldl (fun d l => d.put l .folder) d
  d.put (way.getLast?.getD (.start p)) (content.elim .folder Node.file)

/-- The files in and below the working directory, by name. -/
def files (d : Directory) : List (Path × Bytes) :=
  (d.filterMap fun (l, n) =>
    match l.anchor, n with
    | .above 0, .file content => some (Path.joinPieces l.names, content)
    | _, _ => none).mergeSort fun a b => lexLe UInt8.toNat a.1 b.1

/-- The files that are new or have other content than before. -/
def changes (before after : Directory) : List (Path × Bytes) :=
  after.files.filter fun f => !before.files.contains f

theorem node?_put_self (d : Directory) {l : Location} (h : l.names ≠ []) (n : Node) :
    (d.put l n).node? l = some n := by
  simp [node?, put, h]

theorem node?_put_of_ne (d : Directory) {l m : Location} (h : m ≠ l) (n : Node) :
    (d.put l n).node? m = d.node? m := by
  unfold node? put
  by_cases hm : m.names = []
  · rw [if_pos hm, if_pos hm]
  · rw [if_neg hm, if_neg hm, List.find?_cons_of_neg (by simpa using fun e => h e.symm),
      List.find?_filter]
    congr 2
    funext e
    by_cases he : e.1 = m <;> simp [he, h]

end Directory
end RiscvRom
