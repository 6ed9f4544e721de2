import Mathlib.Tactic.Common
import TreeCode.Proofs.Fixups
import TreeCode.Proofs.Growth
import TreeCode.Session

/-!
# What sessions add up

A session serves one request after another.  Whatever it has served before, it answers a request as
it would be answered outside of the session (`Session.answer_serve`), and its statistics are those
of all the requests together (`Session.tally_serveAll`): so many texts parsed, so many failures, and
the sums and the first of the largest of all codes.
-/

namespace TreeCode

/-! ## Requests -/

/-- What a session can be asked for. -/
inductive Request where
  | parse (text : String)
  | assemble (m : Method) (base : UInt64)
  | compile (m : Method) (addresses : Placements)
  | compileText (text : String) (addresses : Placements)

/-- The answer to a request. -/
inductive Answer where
  | parsed (result : Except ParseError Method)
  | assembled (result : Except CodeError MachineCode)
  | compiled (result : Except CodeError Loaded)
  | compiledText (result : Except Error Loaded)

/-- Whether the answer is an error. -/
@[simp] def Answer.isError : Answer → Bool
  | parsed (.error _) | assembled (.error _) | compiled (.error _) | compiledText (.error _) => true
  | _ => false

namespace Request

/-- The answer outside of any session. -/
@[simp] def answer (cpu : Cpu) (options : Options) : Request → Answer
  | parse text => .parsed (Method.parse text)
  | assemble m base => .assembled (m.assemble cpu base options)
  | compile m addresses => .compiled (m.load cpu options addresses)
  | compileText text addresses => .compiledText do
    let m ← (Method.parse text).mapError .parse
    (m.load cpu options addresses).mapError .code

/-- The method that is parsed for the request. -/
@[simp] def method? : Request → Option Method
  | parse text | compileText text _ => (Method.parse text).toOption
  | assemble _ _ | compile _ _ => none

/-- The code that is made for the request, with the name of its method. -/
@[simp] def code? (cpu : Cpu) (options : Options) : Request → Option (String × MachineCode)
  | parse _ => none
  | assemble m base => do
    let code ← (m.assemble cpu base options).toOption
    some (m.symbol, code)
  | compile m addresses => do
    let l ← (m.load cpu options addresses).toOption
    some (m.symbol, l.code)
  | compileText text addresses => do
    let m ← (Method.parse text).toOption
    let l ← (m.load cpu options addresses).toOption
    some (m.symbol, l.code)

end Request

namespace Session

/-- Serves a request. -/
@[simp] def serve (s : Session) : Request → Answer × Session
  | .parse text =>
    let (result, s) := s.parse text
    (.parsed result, s)
  | .assemble m base =>
    let (result, s) := s.assemble m base
    (.assembled result, s)
  | .compile m addresses =>
    let (result, s) := s.compile m addresses
    (.compiled result, s)
  | .compileText text addresses =>
    let (result, s) := s.compileText text addresses
    (.compiledText result, s)

/-- Serves one request after another. -/
def serveAll (s : Session) : List Request → List Answer × Session
  | [] => ([], s)
  | r :: rs =>
    let (answer, s) := s.serve r
    let (answers, s) := s.serveAll rs
    (answer :: answers, s)

end Session

/-! ## Tallies -/

namespace Statistics

/-- The size and the name of the first of the largest of some codes; there is no name as long as
there is no code. -/
inductive Largest : List (String × MachineCode) → Nat → String → Prop where
  | none : Largest [] 0 ""
  | first {before after : List (String × MachineCode)} {name : String} {code : MachineCode}
      (smaller : ∀ c ∈ before, c.2.bytes.size < code.bytes.size)
      (larger : ∀ c ∈ after, c.2.bytes.size ≤ code.bytes.size) :
      Largest (before ++ (name, code) :: after) code.bytes.size name

/-- Statistics of so many texts parsed, so many failures and these codes. -/
structure Tally (s : Statistics) (parsed failures : Nat) (codes : List (String × MachineCode)) :
    Prop where
  parsed_eq : s.parsed = parsed
  failures_eq : s.failures = failures
  compiled_eq : s.compiled = codes.length
  codeSize_eq : s.codeSize = (codes.map fun c => c.2.bytes.size).sum
  direct_eq : s.direct = (codes.map fun c => c.2.direct).sum
  indirect_eq : s.indirect = (codes.map fun c => c.2.indirect).sum
  scalarized_eq : s.scalarized = (codes.map fun c => c.2.scalarized).sum
  largest : Largest codes s.largestSize s.largestName

variable {s : Statistics} {parsed failures size : Nat} {codes : List (String × MachineCode)}
  {name name' : String} {code : MachineCode}

lemma tally_zero : zero.Tally 0 0 [] := ⟨rfl, rfl, rfl, rfl, rfl, rfl, rfl, .none⟩

lemma Tally.addParsed (h : s.Tally parsed failures codes) :
    s.addParsed.Tally (parsed + 1) failures codes :=
  { h with parsed_eq := congrArg (· + 1) h.parsed_eq }

lemma Tally.addFailure (h : s.Tally parsed failures codes) :
    s.addFailure.Tally parsed (failures + 1) codes :=
  { h with failures_eq := congrArg (· + 1) h.failures_eq }

lemma Largest.le (h : Largest codes size name) : ∀ c ∈ codes, c.2.bytes.size ≤ size := by
  cases h with
  | none => simp
  | first smaller larger =>
    intro c hc
    rcases List.mem_append.mp hc with hc | hc
    · exact Nat.le_of_lt (smaller c hc)
    · rcases List.mem_cons.mp hc with rfl | hc
      · exact Nat.le_refl _
      · exact larger c hc

/-- A larger code takes the place of the largest one. -/
lemma Largest.snoc_of_lt (h : Largest codes size name) (hlt : size < code.bytes.size) :
    Largest (codes ++ [(name', code)]) code.bytes.size name' :=
  .first (fun c hc => Nat.lt_of_le_of_lt (h.le c hc) hlt) (by simp)

/-- A code that is not larger leaves the largest one in its place. -/
lemma Largest.snoc_of_le (h : Largest codes size name) (hpos : 0 < code.bytes.size)
    (hle : code.bytes.size ≤ size) : Largest (codes ++ [(name', code)]) size name := by
  cases h with
  | none => omega
  | first smaller larger =>
    rw [List.append_assoc, List.cons_append]
    refine .first smaller fun c hc => ?_
    rcases List.mem_append.mp hc with hc | hc
    · exact larger c hc
    · obtain rfl := List.mem_singleton.mp hc
      exact hle

lemma Tally.addCode (h : s.Tally parsed failures codes) (hpos : 0 < code.bytes.size) :
    (s.addCode name code).Tally parsed failures (codes ++ [(name, code)]) where
  parsed_eq := h.parsed_eq
  failures_eq := h.failures_eq
  compiled_eq := by simp [Statistics.addCode, h.compiled_eq]
  codeSize_eq := by simp [Statistics.addCode, h.codeSize_eq]
  direct_eq := by simp [Statistics.addCode, h.direct_eq]
  indirect_eq := by simp [Statistics.addCode, h.indirect_eq]
  scalarized_eq := by simp [Statistics.addCode, h.scalarized_eq]
  largest := by
    by_cases hlt : s.largestSize < code.bytes.size
    · simp only [Statistics.addCode, if_pos hlt]
      exact h.largest.snoc_of_lt hlt
    · simp only [Statistics.addCode, if_neg hlt]
      exact h.largest.snoc_of_le hpos (Nat.le_of_not_lt hlt)

end Statistics

/-! ## Codes -/

namespace Method

variable {m : Method} {cpu : Cpu} {options : Options} {addresses : Placements} {base : UInt64}
  {code : MachineCode} {l : Loaded}

/-- There is no empty code: the last thing in it is the epilogue. -/
lemma size_pos_of_codeAt {fallback : VectorFallback} {limit : Nat}
    (h : m.codeAt cpu fallback base limit = .ok code) : 0 < code.bytes.size := by
  obtain ⟨p, hp, hfinish, -⟩ := exists_placed_of_codeAt h
  obtain ⟨arguments, blocks, -, -, hops⟩ := ops_of_lower ⟨rfl, hp.lowered⟩
  have hlast : (m.lower cpu fallback).ops.getLast? = some (.instr .epilogue) := by
    rw [hops]
    simp [Plan.ending, List.getLast?_cons, List.getLast?_append]
  obtain ⟨front, hfront⟩ := List.getLast?_eq_some_iff.mp hlast
  have hplaced := hp.placed
  rw [hfront, List.foldlM_append] at hplaced
  obtain ⟨q, -, hplaced⟩ := Except.bind_eq_ok_iff.mp hplaced
  rw [List.foldlM_cons] at hplaced
  obtain ⟨last, hlast, hplaced⟩ := Except.bind_eq_ok_iff.mp hplaced
  obtain rfl := Except.ok.inj hplaced
  obtain ⟨-, rfl⟩ := Placement.step_eq_ok_iff.mp hlast
  have hbytes : 0 < (q.asm.isa.emission .epilogue).bytes.length := by
    cases q.asm.isa <;> decide
  have hoffset := Assembler.offset_append q.asm (q.asm.isa.emission .epilogue).bytes
  rw [hp.size_eq hfinish]
  show 0 < (q.asm.append (q.asm.isa.emission .epilogue).bytes).offset
  omega

lemma size_pos_of_assemble (h : m.assemble cpu base options = .ok code) : 0 < code.bytes.size :=
  size_pos_of_codeAt (assemble_eq_ok_iff.mp h).1

lemma size_pos_of_load (h : m.load cpu options addresses = .ok l) : 0 < l.code.bytes.size := by
  obtain ⟨attempt, last, hfills⟩ := exists_fills h
  exact size_pos_of_codeAt hfills.made

end Method

/-! ## Runs -/

namespace Session

variable {s : Session} {parsed failures : Nat} {codes : List (String × MachineCode)}

/-- A request is answered as it would be outside of the session, which stays a session for the same
processor and options. -/
lemma answer_serve (s : Session) (r : Request) :
    (s.serve r).1 = r.answer s.cpu s.options ∧ (s.serve r).2.cpu = s.cpu ∧
      (s.serve r).2.options = s.options := by
  cases r with
  | parse text => cases h : Method.parse text <;> simp [Session.parse, failed, h]
  | assemble m base =>
    cases h : m.assemble s.cpu base s.options <;> simp [Session.assemble, failed, h]
  | compile m addresses =>
    cases h : m.load s.cpu s.options addresses <;> simp [Session.compile, failed, h]
  | compileText text addresses =>
    cases h : Method.parse text with
    | error e => simp [compileText, Session.parse, failed, h, Except.mapError]
    | ok m =>
      cases hload : m.load s.cpu s.options addresses <;>
        simp [compileText, Session.parse, Session.compile, failed, h, hload, Except.mapError]

/-- What a request adds to the statistics. -/
lemma tally_serve (h : s.statistics.Tally parsed failures codes) (r : Request) :
    (s.serve r).2.statistics.Tally (parsed + if r.method?.isSome then 1 else 0)
      (failures + if (r.answer s.cpu s.options).isError then 1 else 0)
      (codes ++ (r.code? s.cpu s.options).toList) := by
  cases r with
  | parse text =>
    cases htext : Method.parse text with
    | error e => simpa [Session.parse, failed, htext, Except.toOption] using h.addFailure
    | ok m => simpa [Session.parse, htext, Except.toOption] using h.addParsed
  | assemble m base =>
    cases hcode : m.assemble s.cpu base s.options with
    | error e => simpa [Session.assemble, failed, hcode, Except.toOption] using h.addFailure
    | ok code =>
      simpa [Session.assemble, hcode, Except.toOption] using
        h.addCode (Method.size_pos_of_assemble hcode)
  | compile m addresses =>
    cases hload : m.load s.cpu s.options addresses with
    | error e => simpa [Session.compile, failed, hload, Except.toOption] using h.addFailure
    | ok l =>
      simpa [Session.compile, hload, Except.toOption] using
        h.addCode (Method.size_pos_of_load hload)
  | compileText text addresses =>
    -- a text that is not parsed is one failure; one that is parsed counts whatever comes after
    cases htext : Method.parse text with
    | error e =>
      simpa [compileText, Session.parse, failed, htext, Except.mapError, Except.toOption] using
        h.addFailure
    | ok m =>
      cases hload : m.load s.cpu s.options addresses with
      | error e =>
        simpa [compileText, Session.parse, Session.compile, failed, htext, hload, Except.mapError,
          Except.toOption] using h.addParsed.addFailure
      | ok l =>
        simpa [compileText, Session.parse, Session.compile, htext, hload, Except.mapError,
          Except.toOption] using h.addParsed.addCode (Method.size_pos_of_load hload)

/-- What requests add to the statistics, one after the other. -/
lemma tally_serveAll_of_tally (h : s.statistics.Tally parsed failures codes)
    (requests : List Request) :
    (s.serveAll requests).1 = requests.map (Request.answer s.cpu s.options) ∧
      (s.serveAll requests).2.statistics.Tally
        (parsed + requests.countP fun r => r.method?.isSome)
        (failures + requests.countP fun r => (r.answer s.cpu s.options).isError)
        (codes ++ requests.filterMap (Request.code? s.cpu s.options)) := by
  induction requests generalizing s parsed failures codes with
  | nil => exact ⟨rfl, by simpa [serveAll] using h⟩
  | cons r requests ih =>
    obtain ⟨hanswer, hcpu, hoptions⟩ := answer_serve s r
    obtain ⟨hanswers, htally⟩ := ih (tally_serve h r)
    rw [hcpu, hoptions] at hanswers htally
    refine ⟨?_, ?_⟩
    · rw [List.map_cons, ← hanswer, ← hanswers]
      rfl
    · have hcodes : (r :: requests).filterMap (Request.code? s.cpu s.options) =
          (r.code? s.cpu s.options).toList ++
            requests.filterMap (Request.code? s.cpu s.options) := by
        rw [List.filterMap_cons]
        cases r.code? s.cpu s.options <;> rfl
      rw [List.countP_cons, List.countP_cons, hcodes, ← List.append_assoc,
        Nat.add_comm (requests.countP _), Nat.add_comm (requests.countP _), ← Nat.add_assoc,
        ← Nat.add_assoc]
      exact htally

/-- **The statistics of a session are those of all its requests**, and each request is answered as
if there were no session. -/
theorem tally_serveAll (cpu : Cpu) (options : Options) (requests : List Request) :
    ((Session.new cpu options).serveAll requests).1 =
        requests.map (Request.answer cpu options) ∧
      ((Session.new cpu options).serveAll requests).2.statistics.Tally
        (requests.countP fun r => r.method?.isSome)
        (requests.countP fun r => (r.answer cpu options).isError)
        (requests.filterMap (Request.code? cpu options)) := by
  have htally : (Session.new cpu options).statistics.Tally 0 0 [] := Statistics.tally_zero
  obtain ⟨hanswers, hall⟩ := tally_serveAll_of_tally htally requests
  rw [Nat.zero_add, Nat.zero_add, List.nil_append] at hall
  exact ⟨hanswers, hall⟩

end Session

end TreeCode
