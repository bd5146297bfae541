import RiscvRom.Interchange
import RiscvRom.Main
import RiscvRom.Proofs.AddressMap
import RiscvRom.Proofs.Disassembly
import RiscvRom.Proofs.FirstFault
import RiscvRom.Proofs.Literal
import RiscvRom.Proofs.Relocation
import RiscvRom.Proofs.Layout
import RiscvRom.Proofs.MemoryText
import RiscvRom.Proofs.SameMemory
import RiscvRom.Proofs.BuildArguments
import RiscvRom.Proofs.RunEffects
import RiscvRom.Proofs.AddressText
import RiscvRom.Proofs.BitLayout
import RiscvRom.Proofs.CanonicalLine
import RiscvRom.Proofs.Grammar
import RiscvRom.Proofs.Truncation
import RiscvRom.Proofs.AddressSlice
import RiscvRom.Proofs.PaddedImage
import RiscvRom.Proofs.ModuleName
import RiscvRom.Proofs.ArgumentGrammar
import RiscvRom.Proofs.FileName
import RiscvRom.Proofs.DefaultOutput
import RiscvRom.Proofs.ExitStatus
