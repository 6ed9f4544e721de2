import Mathlib
import TreeCode.Source.Token

/-!
# Scanning what was written

A piece of text and the tokens that it is made of (`Lexes`).  A word or a number goes on as long as
it can, so the piece must not be followed by a character that continues one; pieces that begin with
another character (`Separates`) can be put behind any other piece (`Lexes.append`).
-/

namespace TreeCode.Source

/-- The tokens of a text without their places. -/
def tokens (cs : List Char) : List Token := (scan 0 cs).map Lexeme.token

/-- The place at which a text begins does not change its tokens. -/
lemma map_token_scan (position : Nat) (cs : List Char) :
    (scan position cs).map Lexeme.token = tokens cs := by
  suffices h : ∀ q, (scan position cs).map Lexeme.token = (scan q cs).map Lexeme.token from h 0
  fun_induction scan position cs with
  | case1 => simp [scan]
  | case2 position c rest hblank ih =>
    intro q
    rw [scan, if_pos hblank]
    exact ih _
  | case3 position c rest hblank hcomment comment ih =>
    intro q
    rw [scan, if_neg hblank, if_pos hcomment]
    exact ih _
  | case4 position c rest hblank hcomment hword name ih =>
    intro q
    rw [scan, if_neg hblank, if_neg hcomment, if_pos hword]
    exact congrArg (List.cons (Token.word (String.ofList name))) (ih _)
  | case5 position c rest hblank hcomment hword hnumber literal ih =>
    intro q
    rw [scan, if_neg hblank, if_neg hcomment, if_neg hword, if_pos hnumber]
    exact congrArg (List.cons (Token.number (String.ofList literal))) (ih _)
  | case6 position c rest hblank hcomment hword hnumber hquote hrest =>
    intro q
    rw [scan, if_neg hblank, if_neg hcomment, if_neg hword, if_neg hnumber, if_pos hquote]
    split <;> simp_all
  | case7 position c rest hblank hcomment hword hnumber hquote body head rest' hrest ih =>
    intro q
    rw [scan, if_neg hblank, if_neg hcomment, if_neg hword, if_neg hnumber, if_pos hquote]
    split
    · simp_all
    · rename_i heq
      obtain ⟨-, rfl⟩ := List.cons.inj (hrest.symm.trans heq)
      exact congrArg (List.cons (Token.text (String.ofList body))) (ih _)
  | case8 position c rest hblank hcomment hword hnumber hquote ih =>
    intro q
    rw [scan, if_neg hblank, if_neg hcomment, if_neg hword, if_neg hnumber, if_neg hquote]
    exact congrArg (List.cons ((punctuation? c).getD (.other c))) (ih _)

/-! ## One token -/

variable {c : Char} {rest : List Char}

lemma tokens_nil : tokens [] = [] := by
  rw [tokens, scan, List.map_nil]

lemma tokens_blank (h : isBlank c) : tokens (c :: rest) = tokens rest := by
  rw [tokens, scan, if_pos h, map_token_scan]

/-- Neither blanks nor the mark of a comment begin a word or a number. -/
lemma eq_false_of_skipped (h : isBlank c ∨ c = ';') :
    isWordStart c = false ∧ isNumberStart c = false := by
  simp only [isBlank, Bool.or_eq_true, beq_iff_eq] at h
  rcases h with ((((rfl | rfl) | rfl) | rfl) | rfl) | rfl <;> exact ⟨rfl, rfl⟩

lemma isWordStart_eq_false (h : isNumberStart c) : isWordStart c = false := by
  simp only [isNumberStart, isSign, Bool.or_eq_true, beq_iff_eq] at h
  rcases h with (hdigit | rfl | rfl) | rfl
  · have hunderscore : c ≠ '_' := by
      rintro rfl
      cases hdigit
    simp only [Char.isDigit, Bool.and_eq_true, decide_eq_true_eq] at hdigit
    simp only [isWordStart, Char.isAlpha, Char.isUpper, Char.isLower, Bool.or_eq_false_iff,
      Bool.and_eq_false_iff, decide_eq_false_iff_not, beq_eq_false_iff_ne]
    grind
  all_goals rfl

lemma tokens_word (h : isWordStart c) :
    tokens (c :: rest) = .word (String.ofList (c :: rest.takeWhile isWordChar)) ::
      tokens (rest.dropWhile isWordChar) := by
  have hblank : ¬isBlank c := fun hblank => by simp [(eq_false_of_skipped (.inl hblank)).1] at h
  have hcomment : ¬(c == ';') = true := fun hcomment => by
    simp [(eq_false_of_skipped (.inr (beq_iff_eq.mp hcomment))).1] at h
  rw [tokens, scan, if_neg hblank, if_neg hcomment, if_pos h]
  exact congrArg (List.cons _) (map_token_scan _ _)

lemma tokens_number (h : isNumberStart c) :
    tokens (c :: rest) = .number (String.ofList (c :: numberRun c rest)) ::
      tokens (rest.drop (numberRun c rest).length) := by
  have hblank : ¬isBlank c := fun hblank => by simp [(eq_false_of_skipped (.inl hblank)).2] at h
  have hcomment : ¬(c == ';') = true := fun hcomment => by
    simp [(eq_false_of_skipped (.inr (beq_iff_eq.mp hcomment))).2] at h
  have hword : ¬isWordStart c := by simp [isWordStart_eq_false h]
  rw [tokens, scan, if_neg hblank, if_neg hcomment, if_neg hword, if_pos h]
  exact congrArg (List.cons _) (map_token_scan _ _)

/-- Text between double quotes in which none stands. -/
lemma tokens_text {body : List Char} (h : '"' ∉ body) :
    tokens ('"' :: (body ++ '"' :: rest)) = .text (String.ofList body) :: tokens rest := by
  have hbody : ∀ c ∈ body, (c != '"') = true := fun c hc => by
    rw [bne_iff_ne]
    rintro rfl
    exact h hc
  have htake : (body ++ '"' :: rest).takeWhile (· != '"') = body := by
    rw [List.takeWhile_append_of_pos hbody, List.takeWhile_cons_of_neg (by decide), List.append_nil]
  have hdrop : (body ++ '"' :: rest).dropWhile (· != '"') = '"' :: rest := by
    rw [List.dropWhile_append_of_pos hbody, List.dropWhile_cons_of_neg (by decide)]
  rw [tokens, scan, if_neg (by decide), if_neg (by decide), if_neg (by decide), if_neg (by decide),
    if_pos (by decide)]
  split
  · rename_i heq
    rw [hdrop] at heq
    cases heq
  · rename_i heq
    obtain ⟨-, rfl⟩ := List.cons.inj (hdrop.symm.trans heq)
    rw [List.map_cons, map_token_scan, htake]

lemma tokens_punctuation {t : Token} (h : punctuation? c = some t) :
    tokens (c :: rest) = t :: tokens rest := by
  have hclass : isBlank c = false ∧ (c == ';') = false ∧ isWordStart c = false ∧
      isNumberStart c = false ∧ (c == '"') = false := by
    unfold punctuation? at h
    split at h
    all_goals first | exact ⟨rfl, rfl, rfl, rfl, rfl⟩ | cases h
  obtain ⟨hblank, hcomment, hword, hnumber, hquote⟩ := hclass
  rw [tokens, scan, if_neg (by simp [hblank]), if_neg (by simp [hcomment]),
    if_neg (by simp [hword]), if_neg (by simp [hnumber]), if_neg (by simp [hquote]), h]
  exact congrArg (List.cons t) (map_token_scan _ _)

/-! ## Pieces of text -/

/-- Whether a character continues a word or a number in front of it. -/
def continues (c : Char) : Bool := isWordChar c || c == '.' || isSign c

/-- A text that does not continue a word or a number in front of it. -/
def Separates (cs : List Char) : Prop := ∀ c ∈ cs.head?, continues c = false

/-- A piece of text that is made of the given tokens, whatever follows it. -/
def Lexes (cs : List Char) (ts : List Token) : Prop :=
  ∀ rest, Separates rest → tokens (cs ++ rest) = ts ++ tokens rest

variable {a b : List Char} {ts us : List Token}

lemma separates_nil : Separates [] := by simp [Separates]

lemma separates_cons (h : continues c = false) : Separates (c :: a) := by
  simpa [Separates] using h

lemma Separates.append (ha : Separates a) (hb : Separates b) : Separates (a ++ b) := by
  cases a with
  | nil => exact hb
  | cons c a => exact separates_cons (ha c rfl)

namespace Lexes

lemma nil : Lexes [] [] := fun _ _ => rfl

/-- Two pieces one after the other. -/
lemma append (ha : Lexes a ts) (hb : Lexes b us) (hsep : Separates b) :
    Lexes (a ++ b) (ts ++ us) := by
  intro rest hrest
  rw [List.append_assoc, ha _ (hsep.append hrest), hb _ hrest, List.append_assoc]

lemma blank (hc : isBlank c) (ha : Lexes a ts) : Lexes (c :: a) ts := by
  intro rest hrest
  rw [List.cons_append, tokens_blank hc, ha _ hrest]

lemma punctuation {t : Token} (hc : punctuation? c = some t) (ha : Lexes a ts) :
    Lexes (c :: a) (t :: ts) := by
  intro rest hrest
  rw [List.cons_append, tokens_punctuation hc, ha _ hrest, List.cons_append]

lemma text {body : List Char} (h : '"' ∉ body) :
    Lexes ('"' :: (body ++ ['"'])) [.text (String.ofList body)] := by
  intro rest _
  rw [List.cons_append, List.append_assoc, List.singleton_append, tokens_text h,
    List.singleton_append]

end Lexes

lemma continues_of_isBlank (h : isBlank c) : continues c = false := by
  simp only [isBlank, Bool.or_eq_true, beq_iff_eq] at h
  rcases h with (((rfl | rfl) | rfl) | rfl) | rfl <;> rfl

/-- A piece of text that can stand behind any other. -/
structure Piece (cs : List Char) (ts : List Token) : Prop where
  lexes : Lexes cs ts
  separates : Separates cs

namespace Piece

lemma nil : Piece [] [] := ⟨.nil, separates_nil⟩

lemma append (ha : Piece a ts) (hb : Piece b us) : Piece (a ++ b) (ts ++ us) :=
  ⟨ha.lexes.append hb.lexes hb.separates, ha.separates.append hb.separates⟩

lemma blank (hc : isBlank c) (ha : Lexes a ts) : Piece (c :: a) ts :=
  ⟨ha.blank hc, separates_cons (continues_of_isBlank hc)⟩

end Piece

/-- A name that is scanned as a word. -/
def IsWord (name : List Char) : Prop :=
  ∃ c run, name = c :: run ∧ isWordStart c ∧ ∀ c ∈ run, isWordChar c

lemma isWord_of_all {name : List Char} (h : name.head?.any isWordStart && name.all isWordChar) :
    IsWord name := by
  cases name with
  | nil => cases h
  | cons c run =>
    simp only [List.head?_cons, Option.any_some, List.all_cons, Bool.and_eq_true,
      List.all_eq_true] at h
    exact ⟨c, run, rfl, h.1, h.2.2⟩

lemma IsWord.append {a b : List Char} (ha : a = [] ∨ IsWord a) (hb : IsWord b) :
    IsWord (a ++ b) := by
  rcases ha with rfl | ⟨c, run, rfl, hc, hrun⟩
  · exact hb
  · obtain ⟨c', run', rfl, hc', hrun'⟩ := hb
    refine ⟨c, run ++ c' :: run', rfl, hc, List.forall_mem_append.mpr ⟨hrun, ?_⟩⟩
    refine List.forall_mem_cons.mpr ⟨?_, hrun'⟩
    simp only [isWordStart, isWordChar, Char.isAlphanum, Bool.or_eq_true] at hc' ⊢
    tauto

/-- A literal that is scanned as a number. -/
def IsNumber (literal : List Char) : Prop :=
  ∃ c run, literal = c :: run ∧ isNumberStart c ∧ numberRun c run = run

lemma Lexes.word {name : List Char} (h : IsWord name) :
    Lexes name [.word (String.ofList name)] := by
  intro rest hrest
  obtain ⟨c, run, rfl, hc, hrun⟩ := h
  have hstop : rest.takeWhile isWordChar = [] ∧ rest.dropWhile isWordChar = rest := by
    cases rest with
    | nil => exact ⟨rfl, rfl⟩
    | cons c' rest =>
      have hc' := hrest c' rfl
      simp only [continues, Bool.or_eq_false_iff] at hc'
      simp [hc'.1.1]
  rw [List.cons_append, tokens_word hc, List.takeWhile_append_of_pos hrun,
    List.dropWhile_append_of_pos hrun, hstop.1, hstop.2, List.append_nil, List.singleton_append]

/-- A number ends where no character continues it. -/
lemma numberRun_append {run : List Char} (hrest : Separates rest) (last : Char)
    (hrun : numberRun last run = run) : numberRun last (run ++ rest) = run := by
  induction run generalizing last with
  | nil =>
    cases rest with
    | nil => rfl
    | cons c rest =>
      have hc := hrest c rfl
      simp only [continues, Bool.or_eq_false_iff] at hc
      simp [numberRun, hc.1.1, hc.1.2, hc.2]
  | cons c run ih =>
    rw [numberRun] at hrun
    split at hrun
    · rename_i hc
      rw [List.cons_append, numberRun, if_pos hc, ih c (List.cons.inj hrun).2]
    · cases hrun

lemma Lexes.number {literal : List Char} (h : IsNumber literal) :
    Lexes literal [.number (String.ofList literal)] := by
  intro rest hrest
  obtain ⟨c, run, rfl, hc, hrun⟩ := h
  rw [List.cons_append, tokens_number hc, numberRun_append hrest c hrun, List.drop_left,
    List.singleton_append]

end TreeCode.Source
