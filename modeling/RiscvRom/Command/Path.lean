import RiscvRom.Text.Split
import RiscvRom.Text.Utf8

/-! Paths of files, as bytes.

A path is cut into pieces at the slashes. Empty pieces and single dots lead nowhere, except that a
first empty piece is the root and a first dot the working directory. The last piece that leads
somewhere is the file name, unless it is a double dot. -/

namespace RiscvRom

abbrev Path := Bytes

namespace Path

def slash : UInt8 := 0x2F
def dot : UInt8 := 0x2E

def pieces (p : Path) : List Bytes := splitWhere (· == slash) p

/-- A piece that stays where it is. -/
def isIdle (piece : Bytes) : Bool := piece == [] || piece == [dot]

def isParent (piece : Bytes) : Bool := piece == [dot, dot]

def joinPieces (ps : List Bytes) : Path := [slash].intercalate ps

/-- The pieces up to the last one that leads somewhere, latest first. -/
def significant (p : Path) : List Bytes := (pieces p).reverse.dropWhile isIdle

def fileName? (p : Path) : Option Bytes := (significant p).head?.filter (!isParent ·)

/-- The folder part: what is left without the last significant piece and the idle pieces before
it. -/
def parent (p : Path) : Path :=
  match (significant p).tail, (significant p).tail.dropWhile isIdle with
  | [], _ => []
  | _ :: _, [] => if p.head? = some slash then [slash] else [dot]
  | _ :: _, before => joinPieces before.reverse

/-- The name before its last dot; a name with no dot, or only a leading one, is its own stem. -/
def stem (name : Bytes) : Bytes :=
  match (name.reverse.dropWhile (· != dot)).tail.reverse with
  | [] => name
  | before => before

/-- A name inside a folder; the empty path is the working directory. -/
def join (folder : Path) (name : Bytes) : Path :=
  if folder = [] then name
  else if folder.getLast? = some slash then folder ++ name
  else folder ++ slash :: name

/-- The path as shown in messages. -/
def display (p : Path) : Text := Utf8.decodeLenient p

end Path
end RiscvRom
