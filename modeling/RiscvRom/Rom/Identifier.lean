import RiscvRom.Text.Basic

/-! Names of Verilog modules.

An identifier starts with an ASCII letter or an underscore and goes on with letters, digits,
underscores and dollar signs; a reserved word is none. Any text can be turned into one. -/

namespace RiscvRom.Identifier

/-- The reserved words of Verilog-2005. -/
def reserved : List Text :=
  ["always", "and", "assign", "automatic", "begin", "buf", "bufif0", "bufif1", "case", "casex",
   "casez", "cell", "cmos", "config", "deassign", "default", "defparam", "design", "disable",
   "edge", "else", "end", "endcase", "endconfig", "endfunction", "endgenerate", "endmodule",
   "endprimitive", "endspecify", "endtable", "endtask", "event", "for", "force", "forever",
   "fork", "function", "generate", "genvar", "highz0", "highz1", "if", "ifnone", "incdir",
   "include", "initial", "inout", "input", "instance", "integer", "join", "large", "liblist",
   "library", "localparam", "macromodule", "medium", "module", "nand", "negedge", "nmos", "nor",
   "noshowcancelled", "not", "notif0", "notif1", "or", "output", "parameter", "pmos", "posedge",
   "primitive", "pull0", "pull1", "pulldown", "pullup", "pulsestyle_ondetect",
   "pulsestyle_onevent", "rcmos", "real", "realtime", "reg", "release", "repeat", "rnmos",
   "rpmos", "rtran", "rtranif0", "rtranif1", "scalared", "showcancelled", "signed", "small",
   "specify", "specparam", "strong0", "strong1", "supply0", "supply1", "table", "task", "time",
   "tran", "tranif0", "tranif1", "tri", "tri0", "tri1", "triand", "trior", "trireg", "unsigned",
   "use", "uwire", "vectored", "wait", "wand", "weak0", "weak1", "while", "wire", "wor", "xnor",
   "xor"].map String.toList

def isStart (c : Char) : Bool := c.isAlpha || c == '_'

def isContinuation (c : Char) : Bool := c.isAlphanum || c == '_' || c == '$'

def isValid (name : Text) : Bool :=
  match name with
  | [] => false
  | c :: r => isStart c && r.all isContinuation && !reserved.contains name

/-- An underscore for everything but ASCII letters and digits. -/
def plain (t : Text) : Text := t.map fun c => if c.isAlphanum then c else '_'

/-- An underscore in front unless the text starts as an identifier may. -/
def opened (t : Text) : Text := if t.head?.any isStart then t else '_' :: t

/-- An underscore behind a reserved word. -/
def unreserved (t : Text) : Text := if reserved.contains t then t ++ ['_'] else t

def ofText (t : Text) : Text := unreserved (opened (plain t))

end RiscvRom.Identifier
