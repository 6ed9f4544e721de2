import Mathlib
import TreeCode.ObjectFile

/-!
# Object files read back

The reader of this module knows the format and nothing of the writer.  It takes the place, width and
number of the section headers from the file header, the name of a section from the table the file
header points at, and a symbol from the table its section holds, with its name from the table that
section is linked with.  `ObjectFile.read?_write` says what it finds in a file that was written, and
`ObjectFile.exists_image_of_write` what that means for the code and the symbol.
-/

namespace TreeCode.ObjectFile

/-! ## The reader -/

/-- The bytes of a file from an offset on, when it has that many. -/
def bytesAt? (file : List UInt8) (offset count : Nat) : Option (List UInt8) :=
  if offset + count ≤ file.length then some ((file.drop offset).take count) else none

/-- The number in a field. -/
def number? (file : List UInt8) (offset count : Nat) : Option Nat :=
  (bytesAt? file offset count).map ofLittleEndian

/-- The name at an index of a string table, up to the zero byte that ends it. -/
def name? (table : List UInt8) (index : Nat) : Option String :=
  if 0 ∈ table.drop index then
    String.fromUTF8? ((table.drop index).takeWhile (· ≠ 0)).toByteArray
  else none

/-- Records that stand one behind the other. -/
def records? {α : Type} (read? : Nat → Option α) (width : Nat) :
    (offset count : Nat) → Option (List α)
  | _, 0 => some []
  | offset, count + 1 => do
    let record ← read? offset
    let records ← records? read? width (offset + width) count
    return record :: records

/-- The section header at an offset. -/
def Section.read? (file : List UInt8) (offset : Nat) : Option Section := do
  let name ← number? file offset 4
  let type ← number? file (offset + 4) 4
  let flags ← number? file (offset + 8) 8
  let place ← number? file (offset + 24) 8
  let size ← number? file (offset + 32) 8
  let link ← number? file (offset + 40) 4
  let info ← number? file (offset + 44) 4
  let alignment ← number? file (offset + 48) 8
  let entrySize ← number? file (offset + 56) 8
  return ⟨name, type, flags, place, size, link, info, alignment, entrySize⟩

/-- What a section holds; one of type 8 takes no place in the file. -/
def Section.contents? (file : List UInt8) (s : Section) : Option (List UInt8) :=
  if s.type = 8 then some [] else bytesAt? file s.offset s.size

/-- A section with its name and what it holds. -/
structure NamedSection where
  name : String
  header : Section
  contents : List UInt8

/-- Looks up the name of a section and takes its contents, which stand at its alignment. -/
def Section.named? (file names : List UInt8) (s : Section) : Option NamedSection := do
  guard (s.offset % max 1 s.alignment = 0)
  let name ← name? names s.name
  let contents ← s.contents? file
  return ⟨name, s, contents⟩

/-- An entry of a symbol table. -/
structure Entry where
  name : Nat
  info : Nat
  other : Nat
  index : Nat
  value : Nat
  size : Nat

/-- The entry at an offset of a symbol table. -/
def Entry.read? (table : List UInt8) (offset : Nat) : Option Entry := do
  let name ← number? table offset 4
  let info ← number? table (offset + 4) 1
  let other ← number? table (offset + 5) 1
  let index ← number? table (offset + 6) 2
  let value ← number? table (offset + 8) 8
  let size ← number? table (offset + 16) 8
  return ⟨name, info, other, index, value, size⟩

/-- How far a symbol is seen: 0 for a local one, 1 for a global one. -/
def Entry.binding (e : Entry) : Nat := e.info / 16

/-- What a symbol stands for: 2 for a function. -/
def Entry.kind (e : Entry) : Nat := e.info % 16

/-- A symbol with its name. -/
structure NamedSymbol where
  name : String
  entry : Entry

/-- A symbol is a global function. -/
def NamedSymbol.IsGlobalFunction (s : NamedSymbol) : Prop := s.entry.binding = 1 ∧ s.entry.kind = 2

instance : DecidablePred NamedSymbol.IsGlobalFunction :=
  fun s => inferInstanceAs (Decidable (s.entry.binding = 1 ∧ s.entry.kind = 2))

/-- The symbols of a section of type 2.  Local symbols come first, as many as the header says. -/
def NamedSection.symbols? (sections : List NamedSection) (s : NamedSection) :
    Option (List NamedSymbol) := do
  let names ← sections[s.header.link]?
  -- symbols are linked with a string table
  guard (names.header.type = 3)
  let entries ← records? (Entry.read? s.contents) s.header.entrySize 0
    (s.contents.length / s.header.entrySize)
  guard (∀ e ∈ entries.take s.header.info, e.binding = 0)
  guard (∀ e ∈ entries.drop s.header.info, e.binding ≠ 0)
  entries.mapM fun e => (name? names.contents e.name).map (⟨·, e⟩)

/-- What an object file says. -/
structure Image where
  machine : Nat
  sections : List NamedSection
  symbols : List NamedSymbol

/-- The machine that a number stands for. -/
def Image.isa? (image : Image) : Option Isa :=
  match image.machine with
  | 62 => some .x64
  | 183 => some .aarch64
  | _ => none

/-- Reads a relocatable object of 64 bits, little endian. -/
def read? (file : List UInt8) : Option Image := do
  -- the magic number, then 64 bits, little endian, and the version of the format
  guard (bytesAt? file 0 7 = some [0x7f, 0x45, 0x4c, 0x46, 2, 1, 1])
  -- a relocatable object
  guard (number? file 16 2 = some 1)
  let machine ← number? file 18 2
  let offset ← number? file 40 8
  let width ← number? file 58 2
  let count ← number? file 60 2
  let namesIndex ← number? file 62 2
  guard (offset % 8 = 0)
  let headers ← records? (Section.read? file) width offset count
  let names ← headers[namesIndex]?
  let names ← names.contents? file
  let sections ← headers.mapM (Section.named? file names)
  let symbols ← (sections.filter (·.header.type = 2)).mapM (NamedSection.symbols? sections)
  return ⟨machine, sections, symbols.flatten⟩

/-! ## Parts of a file -/

/-- A part stands at an offset of a file. -/
def Holds (file : List UInt8) (offset : Nat) (part : List UInt8) : Prop :=
  ∃ before after, file = before ++ part ++ after ∧ before.length = offset

section
variable {file part : List UInt8} {offset : Nat}

lemma holds_self (file : List UInt8) : Holds file 0 file := ⟨[], [], by simp, rfl⟩

lemma le_of_holds (h : Holds file offset part) : offset + part.length ≤ file.length := by
  obtain ⟨before, after, rfl, rfl⟩ := h
  simp

lemma holds_nil (file : List UInt8) : Holds file 0 [] := ⟨[], file, by simp, rfl⟩

/-- Two parts stand together where the second one begins at the end of the first. -/
lemma holds_append {a b : List UInt8} :
    Holds file offset (a ++ b) ↔ Holds file offset a ∧ Holds file (offset + a.length) b := by
  constructor
  · rintro ⟨before, after, rfl, rfl⟩
    exact ⟨⟨before, b ++ after, by simp, rfl⟩, ⟨before ++ a, after, by simp, by simp⟩⟩
  · rintro ⟨⟨before, after, rfl, rfl⟩, before', after', heq, hlen⟩
    -- both cuts of the file agree up to the end of the first part
    have hcut : before ++ a = before' ∧ after = b ++ after' := by
      apply List.append_inj
      · simpa using heq
      · simpa using hlen.symm
    exact ⟨before, after', by simp [hcut.2], rfl⟩

lemma bytesAt?_of_holds (h : Holds file offset part) :
    bytesAt? file offset part.length = some part := by
  obtain ⟨before, after, rfl, rfl⟩ := h
  rw [bytesAt?, if_pos (by simp), List.append_assoc, List.drop_left, List.take_left]

lemma number?_of_holds {count n : Nat} (h : Holds file offset (littleEndian count n))
    (hn : n < 256 ^ count) : number? file offset count = some n := by
  have hbytes := bytesAt?_of_holds h
  rw [length_littleEndian] at hbytes
  rw [number?, hbytes, Option.map_some, ofLittleEndian_littleEndian]
  exact congrArg some (Nat.mod_eq_of_lt hn)

/-- Records are read one by one where each of them is. -/
lemma records?_of_holds {α : Type} {bytes : α → List UInt8} {read? : Nat → Option α} {width : Nat}
    {records : List α} (hwidth : ∀ r ∈ records, (bytes r).length = width)
    (hread : ∀ r ∈ records, ∀ offset, Holds file offset (bytes r) → read? offset = some r)
    (h : Holds file offset (records.flatMap bytes)) :
    records? read? width offset records.length = some records := by
  induction records generalizing offset with
  | nil => rfl
  | cons r records ih =>
    -- the width of the record is what the reader steps over
    rw [List.flatMap_cons, holds_append, hwidth r List.mem_cons_self] at h
    obtain ⟨hfirst, hrest⟩ := h
    have hrecord : read? offset = some r := hread r List.mem_cons_self offset hfirst
    have hrecords : records? read? width (offset + width) records.length = some records := by
      apply ih
      · intro r hr
        exact hwidth r (List.mem_cons_of_mem _ hr)
      · intro r hr
        exact hread r (List.mem_cons_of_mem _ hr)
      · exact hrest
    show (do
      let record ← read? offset
      let records ← records? read? width (offset + width) records.length
      return record :: records) = some (r :: records)
    rw [hrecord, hrecords]
    rfl

end

/-! ## Names -/

lemma toList_loop (b : ByteArray) (i : Nat) (read : List UInt8) :
    ByteArray.toList.loop b i read = read.reverse ++ b.data.toList.drop i := by
  fun_induction ByteArray.toList.loop b i read with
  | case1 i read h ih =>
    have hi : i < b.data.toList.length := by simpa using h
    have hget : b.get! i = b.data.toList[i] := getElem!_pos b.data i (by simpa using hi)
    rw [ih, List.reverse_cons, List.append_assoc, List.drop_eq_getElem_cons hi, hget]
    rfl
  | case2 i read h =>
    have hi : b.data.toList.length ≤ i := by simpa using h
    rw [List.drop_eq_nil_of_le hi, List.append_nil]

lemma toList_eq (b : ByteArray) : b.toList = b.data.toList := toList_loop b 0 []

@[simp] lemma terminated_empty : terminated "" = [0] := by
  rw [terminated, toList_eq]
  rfl

@[simp] lemma length_terminated (s : String) : (terminated s).length = s.utf8ByteSize + 1 := by
  rw [terminated, toList_eq, List.length_append]
  rfl

/-- The bytes of a text are those of its characters. -/
lemma toList_toUTF8 (s : String) : s.toUTF8.toList = s.toList.flatMap String.utf8EncodeChar := by
  have hdata : s.toByteArray = s.toList.utf8Encode := by
    conv_lhs => rw [← String.ofList_toList (s := s)]
    rfl
  rw [toList_eq, String.toUTF8_eq_toByteArray, hdata, List.utf8Encode, List.data_toByteArray]

/-- Only the zero character has a zero byte. -/
lemma zero_not_mem_utf8EncodeChar {c : Char} (hc : c ≠ '\x00') : 0 ∉ String.utf8EncodeChar c := by
  have hor {x y : UInt8} (hy : y ≠ 0) : 0 ≠ x ||| y :=
    fun h => hy (UInt8.or_eq_zero_iff.mp h.symm).2
  obtain h | h | h | h : c.utf8Size = 1 ∨ c.utf8Size = 2 ∨ c.utf8Size = 3 ∨ c.utf8Size = 4 := by
    have := c.utf8Size_pos
    have := c.utf8Size_le_four
    omega
  · -- the only byte is the character itself
    rw [String.utf8EncodeChar_eq_singleton h, List.mem_singleton]
    intro hzero
    have hle : c.val.toNat ≤ 127 := UInt32.le_iff_toNat_le.mp (Char.utf8Size_eq_one_iff.mp h)
    have hval : 0 = c.val.toNat % 256 := congrArg UInt8.toNat hzero
    have hnat : c.val.toNat = 0 := by omega
    exact hc (Char.ext (UInt32.toNat_inj.mp hnat))
  · -- from here on every byte has its high bit set
    rw [String.utf8EncodeChar_eq_cons_cons h]
    simp [hor]
  · rw [String.utf8EncodeChar_eq_cons_cons_cons h]
    simp [hor]
  · rw [String.utf8EncodeChar_eq_cons_cons_cons_cons h]
    simp [hor]

/-- A text without the zero character is read back where it stands with a zero behind it. -/
lemma name?_of_holds {table : List UInt8} {index : Nat} {s : String} (hs : '\x00' ∉ s.toList)
    (h : Holds table index (terminated s)) : name? table index = some s := by
  obtain ⟨before, after, rfl, rfl⟩ := h
  have hdrop : (before ++ terminated s ++ after).drop before.length
      = s.toUTF8.toList ++ 0 :: after := by
    rw [List.append_assoc, List.drop_left, terminated, List.append_assoc, List.singleton_append]
  have hpos : ∀ b ∈ s.toUTF8.toList, decide (b ≠ 0) = true := by
    intro b hb
    rw [toList_toUTF8, List.mem_flatMap] at hb
    obtain ⟨c, hc, hb⟩ := hb
    rw [decide_eq_true_eq]
    rintro rfl
    exact zero_not_mem_utf8EncodeChar (fun heq => hs (heq ▸ hc)) hb
  have htake : (s.toUTF8.toList ++ 0 :: after).takeWhile (· ≠ 0) = s.toUTF8.toList := by
    rw [List.takeWhile_append_of_pos hpos, List.takeWhile_cons_of_neg (by simp), List.append_nil]
  have hbytes : s.toUTF8.toList.toByteArray = s.toByteArray := by
    apply ByteArray.ext
    rw [List.data_toByteArray, toList_eq, String.toUTF8_eq_toByteArray, Array.toArray_toList]
  rw [name?, hdrop, if_pos (by simp), htake, hbytes, String.fromUTF8?, dif_pos s.isValidUTF8]
  rfl

/-! ## What is written is read -/

/-- The numbers of a section header fit their fields. -/
structure Section.Fits (s : Section) : Prop where
  name : s.name < 256 ^ 4
  type : s.type < 256 ^ 4
  flags : s.flags < 256 ^ 8
  offset : s.offset < 256 ^ 8
  size : s.size < 256 ^ 8
  link : s.link < 256 ^ 4
  info : s.info < 256 ^ 4
  alignment : s.alignment < 256 ^ 8
  entrySize : s.entrySize < 256 ^ 8

lemma Section.read?_of_holds {file : List UInt8} {offset : Nat} {s : Section} (hs : s.Fits)
    (h : Holds file offset s.bytes) : Section.read? file offset = some s := by
  simp only [Section.bytes, holds_append, List.length_append, length_littleEndian] at h
  obtain ⟨⟨⟨⟨⟨⟨⟨⟨⟨hname, htype⟩, hflags⟩, -⟩, hoffset⟩, hsize⟩, hlink⟩, hinfo⟩, halignment⟩,
    hentry⟩ := h
  simp only [Section.read?, number?_of_holds hname hs.name, number?_of_holds htype hs.type,
    number?_of_holds hflags hs.flags, number?_of_holds hoffset hs.offset,
    number?_of_holds hsize hs.size, number?_of_holds hlink hs.link, number?_of_holds hinfo hs.info,
    number?_of_holds halignment hs.alignment, number?_of_holds hentry hs.entrySize]
  rfl

/-- The bytes of an entry of a symbol table. -/
def Entry.bytes (e : Entry) : List UInt8 :=
  littleEndian 4 e.name ++ littleEndian 1 e.info ++ littleEndian 1 e.other
    ++ littleEndian 2 e.index ++ littleEndian 8 e.value ++ littleEndian 8 e.size

/-- The numbers of an entry fit their fields. -/
structure Entry.Fits (e : Entry) : Prop where
  name : e.name < 256 ^ 4
  info : e.info < 256 ^ 1
  other : e.other < 256 ^ 1
  index : e.index < 256 ^ 2
  value : e.value < 256 ^ 8
  size : e.size < 256 ^ 8

lemma Entry.read?_of_holds {table : List UInt8} {offset : Nat} {e : Entry} (he : e.Fits)
    (h : Holds table offset e.bytes) : Entry.read? table offset = some e := by
  simp only [Entry.bytes, holds_append, List.length_append, length_littleEndian] at h
  obtain ⟨⟨⟨⟨⟨hname, hinfo⟩, hother⟩, hindex⟩, hvalue⟩, hsize⟩ := h
  simp only [Entry.read?, number?_of_holds hname he.name, number?_of_holds hinfo he.info,
    number?_of_holds hother he.other, number?_of_holds hindex he.index,
    number?_of_holds hvalue he.value, number?_of_holds hsize he.size]
  rfl

variable (code : MachineCode) (symbol : String)

/-- Where the symbol table is written. -/
def symbolsOffset : Nat :=
  headerBytes + code.bytes.size + (padding 8 (headerBytes + code.bytes.size)).length

/-- Where the names of symbols are written. -/
def namesOffset : Nat := symbolsOffset code + (symbolTable symbol code.bytes.size).length

/-- Where the names of sections are written. -/
def sectionNamesOffset : Nat := namesOffset code symbol + (symbolNames symbol).length

/-- Where the section headers are written. -/
def sectionsOffset : Nat :=
  sectionNamesOffset code symbol + sectionNames.length
    + (padding 8 (sectionNamesOffset code symbol + sectionNames.length)).length

/-- The section in front, which has no name and holds nothing. -/
def nullSection : NamedSection := ⟨"", ⟨0, 0, 0, 0, 0, 0, 0, 0, 0⟩, []⟩

/-- The section of the code. -/
def textSection : NamedSection :=
  ⟨".text", ⟨textName, 1, 6, headerBytes, code.bytes.size, 0, 0, textAlignment code.isa, 0⟩,
    code.bytes.toList⟩

/-- The section of the symbol table. -/
def symbolSection : NamedSection :=
  ⟨".symtab", ⟨symbolsName, 2, 0, symbolsOffset code, (symbolTable symbol code.bytes.size).length,
    3, 1, 8, symbolBytes⟩, symbolTable symbol code.bytes.size⟩

/-- The section of the names of symbols. -/
def symbolNameSection : NamedSection :=
  ⟨".strtab", ⟨symbolNamesName, 3, 0, namesOffset code symbol, (symbolNames symbol).length, 0, 0,
    1, 0⟩, symbolNames symbol⟩

/-- The section of the names of sections. -/
def sectionNameSection : NamedSection :=
  ⟨".shstrtab", ⟨sectionNamesName, 3, 0, sectionNamesOffset code symbol, sectionNames.length, 0, 0,
    1, 0⟩, sectionNames⟩

/-- The sections of a file that is written, in the order of their headers. -/
def writtenSections : List NamedSection :=
  [nullSection, textSection code, symbolSection code symbol, symbolNameSection code symbol,
    sectionNameSection code symbol]

/-- The symbol in front, which has no name and stands for nothing. -/
def nullSymbol : NamedSymbol := ⟨"", ⟨0, 0, 0, 0, 0, 0⟩⟩

/-- The symbol of the code. -/
def functionSymbol : NamedSymbol :=
  ⟨symbol, ⟨if symbol.isEmpty then 0 else 1, 0x12, 2, 1, 0, code.bytes.size⟩⟩

/-- The symbols of a file that is written. -/
def writtenSymbols : List NamedSymbol := [nullSymbol, functionSymbol code symbol]

/-- A file is written as its header, what the sections hold, and the headers of the sections. -/
lemma write_eq : write code symbol =
    header code.isa (sectionsOffset code symbol) ++ code.bytes.toList
      ++ padding 8 (headerBytes + code.bytes.size) ++ symbolTable symbol code.bytes.size
      ++ symbolNames symbol ++ sectionNames
      ++ padding 8 (sectionNamesOffset code symbol + sectionNames.length)
      ++ ((writtenSections code symbol).map NamedSection.header).flatMap Section.bytes := rfl

/-- The symbol table is written as its two entries. -/
lemma symbolTable_eq : symbolTable symbol code.bytes.size
    = ((writtenSymbols code symbol).map NamedSymbol.entry).flatMap Entry.bytes := by
  have hnull : List.replicate symbolBytes 0 = Entry.bytes ⟨0, 0, 0, 0, 0, 0⟩ := by decide
  have hinfo : ([0x12, 2] : List UInt8) = littleEndian 1 0x12 ++ littleEndian 1 2 := by decide
  simp only [symbolTable, writtenSymbols, nullSymbol, functionSymbol, hnull, hinfo, List.map_cons,
    List.map_nil, List.flatMap_cons, List.flatMap_nil, List.append_nil, Entry.bytes,
    List.append_assoc]

section
variable {code symbol} {s : NamedSection}

lemma mem_writtenSections : s ∈ writtenSections code symbol ↔
    s = nullSection ∨ s = textSection code ∨ s = symbolSection code symbol ∨
      s = symbolNameSection code symbol ∨ s = sectionNameSection code symbol := by
  simp [writtenSections]

lemma mem_writtenSymbols {s : NamedSymbol} :
    s ∈ writtenSymbols code symbol ↔ s = nullSymbol ∨ s = functionSymbol code symbol := by
  simp [writtenSymbols]

/-! ### Where the parts stand -/

lemma length_header (isa : Isa) (sections : Nat) : (header isa sections).length = headerBytes := by
  simp [header, headerBytes]

/-- The header, what the sections hold and their headers stand where they should. -/
lemma holds_parts : Holds (write code symbol) 0 (header code.isa (sectionsOffset code symbol)) ∧
    (∀ s ∈ writtenSections code symbol, Holds (write code symbol) s.header.offset s.contents) ∧
    Holds (write code symbol) (sectionsOffset code symbol)
      (((writtenSections code symbol).map NamedSection.header).flatMap Section.bytes) := by
  have h := holds_self (write code symbol)
  nth_rewrite 2 [write_eq] at h
  simp only [holds_append, List.length_append, length_header, Array.length_toList, Nat.zero_add]
    at h
  rw [← symbolsOffset, ← namesOffset, ← sectionNamesOffset, ← sectionsOffset] at h
  obtain ⟨⟨⟨⟨⟨⟨⟨hstart, htext⟩, -⟩, hsymbols⟩, hnames⟩, hsectionNames⟩, -⟩, hsections⟩ := h
  refine ⟨hstart, ?_, hsections⟩
  intro s hs
  rcases mem_writtenSections.mp hs with rfl | rfl | rfl | rfl | rfl
  · exact holds_nil _
  · exact htext
  · exact hsymbols
  · exact hnames
  · exact hsectionNames

/-- The names of the sections stand in their table where the headers say. -/
lemma holds_sectionName (hs : s ∈ writtenSections code symbol) :
    Holds sectionNames s.header.name (terminated s.name) := by
  have h := holds_self sectionNames
  nth_rewrite 2 [sectionNames] at h
  simp only [holds_append, List.length_append, length_terminated] at h
  obtain ⟨⟨⟨⟨hempty, htext⟩, hsectionNames⟩, hsymbolNames⟩, hsymbols⟩ := h
  rcases mem_writtenSections.mp hs with rfl | rfl | rfl | rfl | rfl
  · exact terminated_empty ▸ hempty
  · exact htext
  · exact hsymbols
  · exact hsymbolNames
  · exact hsectionNames

/-- So do the names of the symbols in theirs. -/
lemma holds_symbolName {s : NamedSymbol} (hs : s ∈ writtenSymbols code symbol) :
    Holds (symbolNames symbol) s.entry.name (terminated s.name) := by
  have hempty (rest : List UInt8) : Holds (0 :: rest) 0 (terminated "") :=
    terminated_empty ▸ ⟨[], rest, rfl, rfl⟩
  by_cases h : symbol = ""
  · -- both symbols take the empty name the table begins with
    subst h
    rcases mem_writtenSymbols.mp hs with rfl | rfl
    · exact hempty []
    · exact hempty []
  · have hne : symbol.isEmpty = false := by simpa using h
    rw [symbolNames, if_neg (by simp [hne])]
    rcases mem_writtenSymbols.mp hs with rfl | rfl
    · exact hempty _
    · rw [functionSymbol, hne]
      exact ⟨[0], [], by simp, rfl⟩

/-! ### What the headers say -/

/-- Headers give the sizes of what the sections hold. -/
lemma size_eq (hs : s ∈ writtenSections code symbol) : s.header.size = s.contents.length := by
  rcases mem_writtenSections.mp hs with rfl | rfl | rfl | rfl | rfl <;> rfl

lemma padding_aligned (size : Nat) : (size + (padding 8 size).length) % 8 = 0 := by
  rw [padding, List.length_replicate]
  omega

/-- The sections stand at their alignments. -/
lemma aligned (hs : s ∈ writtenSections code symbol) :
    s.header.offset % max 1 s.header.alignment = 0 := by
  rcases mem_writtenSections.mp hs with rfl | rfl | rfl | rfl | rfl
  · rfl
  · show headerBytes % max 1 (textAlignment code.isa) = 0
    cases code.isa <;> decide
  · exact padding_aligned _
  · exact Nat.mod_one _
  · exact Nat.mod_one _

/-- But for places and sizes, headers hold small numbers. -/
lemma small (hs : s ∈ writtenSections code symbol) :
    s.header.name < 256 ∧ s.header.type < 4 ∧ s.header.flags < 256 ∧ s.header.link < 256 ∧
      s.header.info < 256 ∧ s.header.alignment < 256 ∧ s.header.entrySize < 256 := by
  have halignment : textAlignment code.isa < 256 := by cases code.isa <;> decide
  rcases mem_writtenSections.mp hs with rfl | rfl | rfl | rfl | rfl
  · simp [nullSection]
  · simp [textSection, textName, halignment]
  · simp [symbolSection, symbolsName, symbolBytes]
  · simp [symbolNameSection, symbolNamesName]
  · simp [sectionNameSection, sectionNamesName]

/-- The numbers of the headers fit when the file has a size. -/
lemma fits_of_length_lt (hsize : (write code symbol).length < wordRange)
    (hs : s ∈ writtenSections code symbol) : s.header.Fits := by
  have hle := le_of_holds (holds_parts.2.1 s hs)
  rw [← size_eq hs] at hle
  rw [wordRange] at hsize
  obtain ⟨hname, htype, hflags, hlink, hinfo, halignment, hentry⟩ := small hs
  constructor <;> omega

/-! ### Sections and symbols -/

lemma contents?_write (hs : s ∈ writtenSections code symbol) :
    s.header.contents? (write code symbol) = some s.contents := by
  have htype : s.header.type ≠ 8 := by
    have := (small hs).2.1
    omega
  rw [Section.contents?, if_neg htype, size_eq hs]
  exact bytesAt?_of_holds (holds_parts.2.1 s hs)

/-- Every section is found under its name with its contents. -/
lemma named?_write (hs : s ∈ writtenSections code symbol) :
    s.header.named? (write code symbol) sectionNames = some s := by
  have hzero : '\x00' ∉ s.name.toList := by
    rcases mem_writtenSections.mp hs with rfl | rfl | rfl | rfl | rfl
    all_goals simp [nullSection, textSection, symbolSection, symbolNameSection, sectionNameSection]
  simp [Section.named?, aligned hs, name?_of_holds hzero (holds_sectionName hs),
    contents?_write hs]

/-- The section headers are read one by one. -/
lemma records?_sections (hsize : (write code symbol).length < wordRange) :
    records? (Section.read? (write code symbol)) sectionHeaderBytes (sectionsOffset code symbol) 5
      = some ((writtenSections code symbol).map NamedSection.header) := by
  have hwidth : ∀ s ∈ (writtenSections code symbol).map NamedSection.header,
      s.bytes.length = sectionHeaderBytes := by
    intro s _
    simp [Section.bytes, sectionHeaderBytes]
  have hread : ∀ s ∈ (writtenSections code symbol).map NamedSection.header, ∀ offset,
      Holds (write code symbol) offset s.bytes →
        Section.read? (write code symbol) offset = some s := by
    rw [List.forall_mem_map]
    intro s hs offset h
    exact Section.read?_of_holds (fits_of_length_lt hsize hs) h
  have h := records?_of_holds hwidth hread holds_parts.2.2
  have hcount : ((writtenSections code symbol).map NamedSection.header).length = 5 := rfl
  rw [hcount] at h
  exact h

/-- The entries of the symbol table are read one by one. -/
lemma records?_symbols (hsize : (write code symbol).length < wordRange) :
    records? (Entry.read? (symbolTable symbol code.bytes.size)) symbolBytes 0 2
      = some ((writtenSymbols code symbol).map NamedSymbol.entry) := by
  have htext : textSection code ∈ writtenSections code symbol := by simp [writtenSections]
  have hlength : code.bytes.size < 256 ^ 8 := (fits_of_length_lt hsize htext).size
  have hwidth : ∀ e ∈ (writtenSymbols code symbol).map NamedSymbol.entry,
      e.bytes.length = symbolBytes := by
    intro e _
    simp [Entry.bytes, symbolBytes]
  have hread : ∀ e ∈ (writtenSymbols code symbol).map NamedSymbol.entry, ∀ offset,
      Holds (symbolTable symbol code.bytes.size) offset e.bytes →
        Entry.read? (symbolTable symbol code.bytes.size) offset = some e := by
    rw [List.forall_mem_map]
    intro s hs offset h
    refine Entry.read?_of_holds ?_ h
    rcases mem_writtenSymbols.mp hs with rfl | rfl
    · constructor <;> decide
    · have hname : (if symbol.isEmpty then 0 else 1) < 256 ^ 4 := by split <;> decide
      refine ⟨hname, ?_, ?_, ?_, ?_, hlength⟩ <;> simp [functionSymbol]
  have h := holds_self (symbolTable symbol code.bytes.size)
  nth_rewrite 2 [symbolTable_eq] at h
  exact records?_of_holds hwidth hread h

lemma mapM_map_eq_some {α β : Type} {f : α → Option β} {g : β → α} {l : List β}
    (h : ∀ b ∈ l, f (g b) = some b) : (l.map g).mapM f = some l := by
  induction l with
  | nil => rfl
  | cons b l ih =>
    have hfirst := h b List.mem_cons_self
    have hrest := ih fun b hb => h b (List.mem_cons_of_mem _ hb)
    rw [List.map_cons, List.mapM_cons, hfirst, hrest]
    rfl

/-- The symbol table gives the two symbols, the local one first. -/
lemma symbols?_write (hname : '\x00' ∉ symbol.toList)
    (hsize : (write code symbol).length < wordRange) :
    (symbolSection code symbol).symbols? (writtenSections code symbol)
      = some (writtenSymbols code symbol) := by
  have hlinked : (writtenSections code symbol)[3]? = some (symbolNameSection code symbol) := rfl
  have hcount : (symbolTable symbol code.bytes.size).length / symbolBytes = 2 := by
    simp [symbolTable, symbolBytes]
  have hentries := records?_symbols hsize
  have hlocal : ∀ e ∈ ((writtenSymbols code symbol).map NamedSymbol.entry).take 1,
      e.binding = 0 := by
    simp [writtenSymbols, nullSymbol, Entry.binding]
  have hglobal : ∀ e ∈ ((writtenSymbols code symbol).map NamedSymbol.entry).drop 1,
      e.binding ≠ 0 := by
    simp [writtenSymbols, functionSymbol, Entry.binding]
  have hnames : ((writtenSymbols code symbol).map NamedSymbol.entry).mapM
      (fun e => (name? (symbolNames symbol) e.name).map (⟨·, e⟩))
        = some (writtenSymbols code symbol) := by
    apply mapM_map_eq_some
    intro s hs
    have hzero : '\x00' ∉ s.name.toList := by
      rcases mem_writtenSymbols.mp hs with rfl | rfl
      · decide
      · exact hname
    rw [name?_of_holds hzero (holds_symbolName hs)]
    rfl
  -- unfolded together, so that the tests of the reader are about the table as it stands
  unfold NamedSection.symbols? symbolSection
  simp only [hlinked, symbolNameSection, hcount, hentries, guard, if_pos hlocal, if_pos hglobal,
    hnames, if_true, Option.pure_def, Option.bind_eq_bind, Option.bind_some]

end

/-! ### The whole file -/

/-- The fields of a file header that are read. -/
lemma header_fields {file : List UInt8} {isa : Isa} {sections : Nat}
    (hsections : sections < 256 ^ 8) (h : Holds file 0 (header isa sections)) :
    bytesAt? file 0 7 = some [0x7f, 0x45, 0x4c, 0x46, 2, 1, 1] ∧ number? file 16 2 = some 1 ∧
      number? file 18 2 = some (machine isa) ∧ number? file 40 8 = some sections ∧
      number? file 58 2 = some sectionHeaderBytes ∧ number? file 60 2 = some 5 ∧
      number? file 62 2 = some 4 := by
  have hmachine : machine isa < 256 ^ 2 := by cases isa <;> decide
  have hstart : ([0x7f, 0x45, 0x4c, 0x46, 2, 1, 1, 0] : List UInt8)
      = [0x7f, 0x45, 0x4c, 0x46, 2, 1, 1] ++ [0] := rfl
  simp only [header, hstart, holds_append, List.length_append, length_littleEndian,
    List.length_replicate] at h
  obtain ⟨⟨⟨⟨⟨⟨⟨⟨⟨⟨⟨⟨⟨⟨⟨hmagic, -⟩, -⟩, htype⟩, hmachineAt⟩, -⟩, -⟩, -⟩, hsectionsAt⟩, -⟩, -⟩, -⟩,
    -⟩, hwidth⟩, hcount⟩, hnames⟩ := h
  exact ⟨bytesAt?_of_holds hmagic, number?_of_holds htype (by decide),
    number?_of_holds hmachineAt hmachine, number?_of_holds hsectionsAt hsections,
    number?_of_holds hwidth (by decide), number?_of_holds hcount (by decide),
    number?_of_holds hnames (by decide)⟩

variable {code symbol}

/-- **The reader finds in a file the sections and the symbols it was written with.** -/
theorem read?_write (hname : '\x00' ∉ symbol.toList)
    (hsize : (write code symbol).length < wordRange) :
    read? (write code symbol)
      = some ⟨machine code.isa, writtenSections code symbol, writtenSymbols code symbol⟩ := by
  obtain ⟨hstart, -, hheaders⟩ := @holds_parts code symbol
  have hoffset : sectionsOffset code symbol < 256 ^ 8 := by
    have hle := le_of_holds hheaders
    rw [wordRange] at hsize
    omega
  obtain ⟨hmagic, htype, hmachine, hsections, hwidth, hcount, hnames⟩ :=
    header_fields hoffset hstart
  have haligned : sectionsOffset code symbol % 8 = 0 := padding_aligned _
  have hrecords := records?_sections hsize
  have htable : ((writtenSections code symbol).map NamedSection.header)[4]?
      = some (sectionNameSection code symbol).header := rfl
  have hcontents : (sectionNameSection code symbol).header.contents? (write code symbol)
      = some sectionNames := contents?_write (by simp [writtenSections])
  have hnamed : ((writtenSections code symbol).map NamedSection.header).mapM
      (Section.named? (write code symbol) sectionNames) = some (writtenSections code symbol) :=
    mapM_map_eq_some fun _ hs => named?_write hs
  have hfilter : (writtenSections code symbol).filter (·.header.type = 2)
      = [symbolSection code symbol] := rfl
  have hsymbols := symbols?_write hname hsize
  simp only [read?, hmagic, htype, hmachine, hsections, hwidth, hcount, hnames, haligned, hrecords,
    htable, hcontents, hnamed, hfilter, List.mapM_cons, List.mapM_nil, hsymbols, guard, if_true,
    Option.pure_def, Option.bind_eq_bind, Option.bind_some, List.flatten_cons, List.flatten_nil,
    List.append_nil]

/-- What a file takes besides the code and the name of the symbol is little. -/
theorem length_write_le :
    (write code symbol).length ≤ code.bytes.size + symbol.utf8ByteSize + 512 := by
  have hpadding (size : Nat) : (padding 8 size).length < 8 := by
    rw [padding, List.length_replicate]
    exact Nat.mod_lt _ (by decide)
  have hnames : (symbolNames symbol).length ≤ symbol.utf8ByteSize + 2 := by
    rw [symbolNames]
    split <;> simp
  have hsectionNames : sectionNames.length = 33 := by
    simp only [sectionNames, List.length_append, length_terminated]
    rfl
  have hheaders : (((writtenSections code symbol).map NamedSection.header).flatMap
      Section.bytes).length = 320 := by
    simp [writtenSections, Section.bytes]
  have hsymbols : (symbolTable symbol code.bytes.size).length = 48 := by
    simp [symbolTable, symbolBytes]
  have hbefore := hpadding (headerBytes + code.bytes.size)
  have hbehind := hpadding (sectionNamesOffset code symbol + sectionNames.length)
  rw [write_eq]
  simp only [List.length_append, length_header, headerBytes, Array.length_toList, hsymbols,
    hheaders]
  rw [headerBytes] at hbefore
  omega

/-- **A file that is written is read back.**  Under a symbol without a zero character, and in a file
whose size is a 64-bit number as every size is, the reader finds the machine of the code, one
section `.text` with the bytes of the code, and one global function.  It has the name of the symbol,
begins with the section and is as long as the code. -/
theorem exists_image_of_write (hname : '\x00' ∉ symbol.toList)
    (hsize : (write code symbol).length < wordRange) :
    ∃ image text function, read? (write code symbol) = some image ∧
      image.isa? = some code.isa ∧
      image.sections.filter (·.name = ".text") = [text] ∧ text.contents = code.bytes.toList ∧
      image.symbols.filter (·.IsGlobalFunction) = [function] ∧ function.name = symbol ∧
      image.sections[function.entry.index]? = some text ∧ function.entry.value = 0 ∧
      function.entry.size = code.bytes.size := by
  refine ⟨_, textSection code, functionSymbol code symbol, read?_write hname hsize, ?_, ?_, rfl, ?_,
    rfl, rfl, rfl, rfl⟩
  · cases code.isa <;> rfl
  · rfl
  · simp [writtenSymbols, nullSymbol, functionSymbol, NamedSymbol.IsGlobalFunction, Entry.binding,
      Entry.kind]

/-- A return on AArch64 under a name that the names of two sections end with. -/
theorem exists_image_of_write_strtab :
    '\x00' ∉ "strtab".toList ∧
    (write ⟨.aarch64, 0, #[0xc0, 0x03, 0x5f, 0xd6], 0, 0, 0⟩ "strtab").length < wordRange ∧
    ∃ image text function,
      read? (write ⟨.aarch64, 0, #[0xc0, 0x03, 0x5f, 0xd6], 0, 0, 0⟩ "strtab") = some image ∧
      image.isa? = some .aarch64 ∧
      image.sections.filter (·.name = ".text") = [text] ∧
      text.contents = [0xc0, 0x03, 0x5f, 0xd6] ∧
      image.symbols.filter (·.IsGlobalFunction) = [function] ∧ function.name = "strtab" ∧
      image.sections[function.entry.index]? = some text ∧ function.entry.value = 0 ∧
      function.entry.size = 4 := by
  have hsize : (write ⟨.aarch64, 0, #[0xc0, 0x03, 0x5f, 0xd6], 0, 0, 0⟩ "strtab").length
      < wordRange := Nat.lt_of_le_of_lt length_write_le (by decide)
  exact ⟨by decide, hsize, exists_image_of_write (by decide) hsize⟩

end TreeCode.ObjectFile
