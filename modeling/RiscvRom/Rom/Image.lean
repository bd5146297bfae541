import RiscvRom.Instruction.Decoded
import RiscvRom.Program
import RiscvRom.Rom.Geometry

/-! Instruction memories as text: a Verilog module, or a list of hexadecimal words.

Both hold the words of the program from slot zero on and the fill word in every slot after them. The
module assigns the words one by one, each with its source line as a comment, and the fill word in a
loop. The hexadecimal image has one line for each slot. -/

namespace RiscvRom.Rom

/-- One assignment of the module: slot, word, and the source line as a comment. -/
def assignment (r : Record) : Text :=
  "rom[".toList ++ Text.padLeft 2 (Text.decimal r.slot) ++ "] = 32'h".toList ++
    Text.hexWord r.word ++ "; // ".toList ++ r.source

/-- What the fill word does, as a comment. -/
def fillMeaning (w : Word) : Text :=
  match Decoded.ofWord? w with
  | none => "fill".toList
  | some d => d.text .numeric ++ if w = nopWord then " (nop)".toList else []

/-- The loop over the slots that the program leaves free. -/
def fillLines (g : Geometry) (used : Nat) : List Text :=
  if used < g.depth then
    [[],
     "        // remaining slots hold the fill word".toList,
     "        for (i = ".toList ++ Text.decimal used ++ "; i < ".toList ++ Text.decimal g.depth ++
       "; i = i + 1) begin".toList,
     "            rom[i] = 32'h".toList ++ Text.hexWord g.fill ++ "; // ".toList ++
       fillMeaning g.fill,
     "        end".toList]
  else []

def moduleLines (g : Geometry) (records : List Record) : List Text :=
  ["// ".toList ++ g.moduleName ++ ".v - generated instruction memory".toList,
   "module ".toList ++ g.moduleName ++ "(".toList,
   "    input wire [31:0] addr,".toList,
   "    output wire [31:0] inst".toList,
   ");".toList,
   "    reg [31:0] rom [0:".toList ++ Text.decimal (g.depth - 1) ++ "];".toList,
   "    assign inst = rom[addr[".toList ++ Text.decimal g.topAddressBit ++ ":2]];".toList,
   [],
   "    integer i;".toList,
   [],
   "    initial begin".toList] ++
  records.map (fun r => "        ".toList ++ assignment r) ++
  fillLines g records.length ++
  ["    end".toList, "endmodule".toList]

/-- The words in the slots, in order. -/
def contents (g : Geometry) (records : List Record) : List Word :=
  records.map (·.word) ++ List.replicate (g.depth - records.length) g.fill

def verilog (g : Geometry) (records : List Record) : Except Refusal Text :=
  match g.check records.length with
  | .error e => .error e
  | .ok () =>
    if Identifier.isValid g.moduleName then .ok (Text.unlines (moduleLines g records))
    else .error (.invalidModuleName g.moduleName)

def hex (g : Geometry) (records : List Record) : Except Refusal Text :=
  match g.check records.length with
  | .error e => .error e
  | .ok () => .ok (Text.unlines ((contents g records).map Text.hexWord))

end RiscvRom.Rom
