import RiscvRom.Command.Session

/-! The program itself: carries out a session on real files. -/

namespace RiscvRom.Command

/-- The system's text and number of a failed file operation. -/
def storeError : IO.Error → StoreError
  | .noFileOrDirectory .. => .notFound
  | .alreadyExists _ code detail | .otherError code detail | .resourceBusy code detail
  | .resourceVanished code detail | .unsupportedOperation code detail | .hardwareFault code detail
  | .unsatisfiedConstraints code detail | .illegalOperation code detail
  | .protocolError code detail | .timeExpired code detail | .interrupted _ code detail
  | .invalidArgument _ code detail | .permissionDenied _ code detail
  | .resourceExhausted _ code detail | .inappropriateType _ code detail
  | .noSuchThing _ code detail => ⟨detail.toList, code.toNat⟩
  | .unexpectedEof => ⟨"unexpected end of file".toList, 0⟩
  | .userError detail => ⟨detail.toList, 0⟩

def attempt {α : Type} (action : IO α) : IO (Except StoreError α) := do
  try return .ok (← action)
  catch e => return .error (storeError e)

def fileName (p : Path) : String := String.ofList p.display

def perform : Session → IO Outcome
  | .done o => return o
  | .read p next => do
    let content ← attempt (IO.FS.readBinFile (fileName p))
    perform (next (content.map (·.toList)))
  | .write p content next => do
    let written ← attempt (IO.FS.writeBinFile (fileName p) (ByteArray.mk content.toArray))
    perform (next written)

def verbosity : IO Log.Verbosity := do
  match ← IO.getEnv "RUST_LOG" with
  | some name => return .ofName name.toList
  | none => return .standard

end RiscvRom.Command

def main (args : List String) : IO UInt32 := do
  let verbosity ← RiscvRom.Command.verbosity
  let outcome ← RiscvRom.Command.perform
    (RiscvRom.Command.session (args.map (·.toUTF8.toList)))
  IO.eprint (String.ofList (outcome.errorOutput verbosity))
  IO.print (String.ofList outcome.output)
  return outcome.status.toUInt32
