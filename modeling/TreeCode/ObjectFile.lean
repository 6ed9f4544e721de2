import TreeCode.Assembly

/-!
# Object files

Machine code is written as an ELF relocatable object: 64 bits, little endian, with one `.text`
section that holds the code and one global function symbol that covers all of it.  Behind the file
header come the code, the symbol table, the two string tables and the section headers; the offsets
and sizes in the headers follow from the lengths of the parts before.
-/

namespace TreeCode.ObjectFile

/-- Zero bytes up to the next multiple of an alignment. -/
def padding (alignment size : Nat) : List UInt8 :=
  List.replicate ((alignment - size % alignment) % alignment) 0

/-- The characters of a text as bytes with a zero behind them. -/
def terminated (s : String) : List UInt8 := s.toUTF8.toList ++ [0]

/-- Number of the machine. -/
def machine : Isa → Nat
  | .aarch64 => 0xb7
  | .x64 => 0x3e

/-- Alignment of the code. -/
def textAlignment : Isa → Nat
  | .aarch64 => 4
  | .x64 => 16

/-- Size of the file header. -/
def headerBytes : Nat := 64

/-- Size of a section header. -/
def sectionHeaderBytes : Nat := 64

/-- Size of an entry of the symbol table. -/
def symbolBytes : Nat := 24

/-- The header of a section. -/
structure Section where
  name : Nat
  type : Nat
  flags : Nat
  offset : Nat
  size : Nat
  link : Nat
  info : Nat
  alignment : Nat
  entrySize : Nat

/-- The bytes of a section header; sections have no address. -/
def Section.bytes (s : Section) : List UInt8 :=
  littleEndian 4 s.name ++ littleEndian 4 s.type ++ littleEndian 8 s.flags ++ littleEndian 8 0
    ++ littleEndian 8 s.offset ++ littleEndian 8 s.size ++ littleEndian 4 s.link
    ++ littleEndian 4 s.info ++ littleEndian 8 s.alignment ++ littleEndian 8 s.entrySize

/-- The names of the sections, with the empty name first. -/
def sectionNames : List UInt8 :=
  [0] ++ terminated ".text" ++ terminated ".shstrtab" ++ terminated ".strtab"
    ++ terminated ".symtab"

/-- The places of the names in the table. -/
def textName : Nat := 1

/-- The place of the name of the table of section names. -/
def sectionNamesName : Nat := 7

/-- The place of the name of the table of symbol names. -/
def symbolNamesName : Nat := 17

/-- The place of the name of the symbol table. -/
def symbolsName : Nat := 25

/-- The names of symbols, with the empty name first. -/
def symbolNames (symbol : String) : List UInt8 :=
  if symbol.isEmpty then [0] else 0 :: terminated symbol

/-- The symbol table: a null symbol, and a global function in the first section that begins with
the code and is as long. -/
def symbolTable (symbol : String) (size : Nat) : List UInt8 :=
  List.replicate symbolBytes 0
    ++ littleEndian 4 (if symbol.isEmpty then 0 else 1) ++ [0x12, 2] ++ littleEndian 2 1
    ++ littleEndian 8 0 ++ littleEndian 8 size

/-- The file header. -/
def header (isa : Isa) (sections : Nat) : List UInt8 :=
  [0x7f, 0x45, 0x4c, 0x46, 2, 1, 1, 0] ++ List.replicate 8 0
    ++ littleEndian 2 1 ++ littleEndian 2 (machine isa) ++ littleEndian 4 1
    ++ littleEndian 8 0 ++ littleEndian 8 0 ++ littleEndian 8 sections ++ littleEndian 4 0
    ++ littleEndian 2 headerBytes ++ littleEndian 2 0 ++ littleEndian 2 0
    ++ littleEndian 2 sectionHeaderBytes ++ littleEndian 2 5 ++ littleEndian 2 4

/-- The object file of machine code under a symbol. -/
def write (code : MachineCode) (symbol : String) : List UInt8 :=
  let text := code.bytes.toList
  let textEnd := headerBytes + text.length
  let symbols := symbolTable symbol text.length
  let beforeSymbols := padding 8 textEnd
  let symbolsOffset := textEnd + beforeSymbols.length
  let names := symbolNames symbol
  let namesOffset := symbolsOffset + symbols.length
  let sectionNamesOffset := namesOffset + names.length
  let namesEnd := sectionNamesOffset + sectionNames.length
  let beforeSections := padding 8 namesEnd
  let sections : List Section :=
    [⟨0, 0, 0, 0, 0, 0, 0, 0, 0⟩,
      ⟨textName, 1, 6, headerBytes, text.length, 0, 0, textAlignment code.isa, 0⟩,
      ⟨symbolsName, 2, 0, symbolsOffset, symbols.length, 3, 1, 8, symbolBytes⟩,
      ⟨symbolNamesName, 3, 0, namesOffset, names.length, 0, 0, 1, 0⟩,
      ⟨sectionNamesName, 3, 0, sectionNamesOffset, sectionNames.length, 0, 0, 1, 0⟩]
  header code.isa (namesEnd + beforeSections.length) ++ text ++ beforeSymbols ++ symbols ++ names
    ++ sectionNames ++ beforeSections ++ sections.flatMap Section.bytes

end TreeCode.ObjectFile
