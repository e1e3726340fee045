import Mathlib.Data.List.Chain
import Mathlib.Logic.Relation
import Opto.Liberty.Parsing

/-!
# The spelling of expressions

A layout spells a text out: blanks, words and the signs of operators. Words end where a sign
begins, and an arrow is a sign. The lexer reads a layout as it is spelled unless an arrow touches
the word before it.
-/

namespace Opto.Liberty

inductive Piece
  | blank (c : Char)
  | word (w : List Char)
  | sign (spelling : List Char)
  deriving DecidableEq

def arrow : List Char := ['-', '>']

/-- The token that a sign stands for. -/
def signToken : List Char → Option Token
  | [c] => singleToken c
  | spelling =>
    if spelling = arrow ∨ spelling = ['=', '>'] then some .imp
    else if spelling = ['=', '='] then some .iff
    else none

def IsWord (w : List Char) : Prop := w ≠ [] ∧ (∀ c ∈ w, isDelimiter c = false) ∧ ¬arrow <:+: w

instance (w : List Char) : Decidable (IsWord w) :=
  have : Decidable (∀ c ∈ w, isDelimiter c = false) := List.decidableBAll _ w
  inferInstanceAs (Decidable (_ ∧ _ ∧ _))

abbrev Layout := List Piece

namespace Piece

def text : Piece → List Char
  | blank c => [c]
  | word w => w
  | sign spelling => spelling

def token : Piece → Option Token
  | blank _ => none
  | word w => some (wordToken w)
  | sign spelling => signToken spelling

def Valid : Piece → Prop
  | blank c => isBlank c = true
  | word w => IsWord w
  | sign spelling => (signToken spelling).isSome = true

instance : ∀ p : Piece, Decidable p.Valid
  | blank _ | sign _ => inferInstanceAs (Decidable (_ = true))
  | word w => inferInstanceAs (Decidable (IsWord w))

def isWord : Piece → Bool
  | word _ => true
  | _ => false

def isBlank : Piece → Bool
  | blank _ => true
  | _ => false

end Piece

namespace Layout

def text (layout : Layout) : List Char := layout.flatMap Piece.text

def tokens (layout : Layout) : List Token := layout.filterMap Piece.token

/-- Words do not touch. -/
def Separated (layout : Layout) : Prop := layout.IsChain fun p q => ¬(p.isWord = true ∧ q.isWord = true)

instance (layout : Layout) : Decidable layout.Separated := inferInstanceAs (Decidable (List.IsChain _ _))

def Valid (layout : Layout) : Prop := (∀ p ∈ layout, p.Valid) ∧ layout.Separated

instance (layout : Layout) : Decidable layout.Valid := inferInstanceAs (Decidable (_ ∧ _))

/-- No arrow touches the word before it. -/
def Parted (layout : Layout) : Prop := layout.IsChain fun p q => ¬(p.isWord = true ∧ q = .sign arrow)

/-- No arrow follows a word, even after blanks. -/
def Apart (layout : Layout) : Prop := Parted (layout.filter fun p => !p.isBlank)

/-- A blank is added next to the sign of an operator. -/
inductive Spaced : Layout → Layout → Prop
  | before (first rest : Layout) (spelling : List Char) (c : Char) : isBlank c = true →
    Spaced (first ++ .sign spelling :: rest) (first ++ .blank c :: .sign spelling :: rest)
  | after (first rest : Layout) (spelling : List Char) (c : Char) : isBlank c = true →
    Spaced (first ++ .sign spelling :: rest) (first ++ .sign spelling :: .blank c :: rest)

/-- Blanks are added and removed around the signs of operators. -/
def Respaced : Layout → Layout → Prop := Relation.EqvGen Spaced

end Layout

/-! What the lexer reads. -/

section

variable {c : Char} {spelling w rest : List Char} {token : Token}

/-- The signs: one character, or two. -/
theorem signToken_cases (h : signToken spelling = some token) :
    (∃ c, spelling = [c] ∧ singleToken c = some token) ∨ (spelling = arrow ∧ token = .imp) ∨
      (spelling = ['=', '>'] ∧ token = .imp) ∨ (spelling = ['=', '='] ∧ token = .iff) := by
  match spelling with
  | [c] => exact .inl ⟨c, rfl, h⟩
  | [] => cases h
  | c :: d :: rest =>
    rw [signToken.eq_2 _ (by simp)] at h
    split_ifs at h with himp hiff
    · have htoken := (Option.some.inj h).symm
      exact .inr (himp.imp (fun hspelling => ⟨hspelling, htoken⟩) fun hspelling => .inl ⟨hspelling, htoken⟩)
    · exact .inr (.inr (.inr ⟨hiff, (Option.some.inj h).symm⟩))

theorem isDelimiter_of_blank (h : isBlank c = true) : isDelimiter c = true := by
  simp [isDelimiter, isAsciiWhitespace, h]

theorem isDelimiter_of_single (h : singleToken c = some token) : isDelimiter c = true := by
  simp [isDelimiter, h]

theorem not_blank_of_single (h : singleToken c = some token) : isBlank c = false := by
  by_contra hblank
  simp only [isBlank, Bool.or_eq_true, decide_eq_true_eq, Bool.not_eq_false] at hblank
  rcases hblank with ((rfl | rfl) | rfl) | rfl <;> cases h

theorem tokensOf_blank (rest : List Char) (h : isBlank c = true) : tokensOf (c :: rest) = tokensOf rest := by
  have hdrop : (c :: rest).dropWhile isBlank = rest.dropWhile isBlank := List.dropWhile_cons_of_pos h
  cases hrest : rest.dropWhile isBlank with
  | nil => rw [tokensOf_nil hrest, tokensOf_nil (hdrop.trans hrest)]
  | cons d more => rw [tokensOf_cons hrest, tokensOf_cons (hdrop.trans hrest)]

theorem tokensOf_lexed (rest : List Char) (h : isBlank c = false) :
    tokensOf (c :: rest) = (lexFrom c rest).1 :: tokensOf (lexFrom c rest).2 :=
  tokensOf_cons (List.dropWhile_cons_of_neg (by rw [h]; exact Bool.false_ne_true))

theorem lexFrom_single (h : singleToken c = some token) : lexFrom c rest = (token, rest) := by
  rw [lexFrom, h]

theorem tokensOf_sign (rest : List Char) (h : signToken spelling = some token) :
    tokensOf (spelling ++ rest) = token :: tokensOf rest := by
  obtain ⟨c, rfl, hsingle⟩ | ⟨rfl, rfl⟩ | ⟨rfl, rfl⟩ | ⟨rfl, rfl⟩ := signToken_cases h
  · rw [List.singleton_append, tokensOf_lexed _ (not_blank_of_single hsingle), lexFrom_single hsingle]
  · exact tokensOf_lexed _ rfl
  · exact tokensOf_lexed _ rfl
  · exact tokensOf_lexed _ rfl

theorem not_single_of_word (h : isDelimiter c = false) : singleToken c = none := by
  by_contra hsome
  obtain ⟨token, htoken⟩ := Option.ne_none_iff_exists'.mp hsome
  rw [isDelimiter_of_single htoken] at h
  cases h

theorem not_blank_of_word (h : isDelimiter c = false) : isBlank c = false := by
  by_contra hblank
  rw [isDelimiter_of_blank (Bool.not_eq_false _ ▸ hblank)] at h
  cases h

/-- A word goes on to the next delimiter. -/
theorem lexFrom_word (h : isDelimiter c = false) (harrow : ¬(c = '-' ∧ rest.head? = some '>')) :
    lexFrom c rest =
      (wordToken (c :: rest.takeWhile (!isDelimiter ·)), rest.dropWhile (!isDelimiter ·)) := by
  have hequals : c ≠ '=' := by
    rintro rfl
    cases h
  rw [lexFrom, not_single_of_word h]
  dsimp only
  rw [if_neg (by rintro ⟨hc | hc, hhead⟩; exacts [harrow ⟨hc, hhead⟩, hequals hc]), if_neg fun h => hequals h.1, lexWord,
    h, if_neg Bool.false_ne_true]

theorem tokensOf_word (hw : IsWord w) (hrest : ∀ c, rest.head? = some c → isDelimiter c = true) :
    tokensOf (w ++ rest) = wordToken w :: tokensOf rest := by
  obtain ⟨hnil, hword, harrow⟩ := hw
  obtain ⟨c, w, rfl⟩ := List.exists_cons_of_ne_nil hnil
  have hdelimiter : isDelimiter c = false := hword c List.mem_cons_self
  have htail : ∀ d ∈ w, (!isDelimiter d) = true := fun d hd => by rw [hword d (List.mem_cons_of_mem c hd)]; rfl
  have htake : rest.takeWhile (!isDelimiter ·) = [] := by
    cases rest with
    | nil => rfl
    | cons d rest => exact List.takeWhile_cons_of_neg (by rw [hrest d rfl]; decide)
  have hdrop : rest.dropWhile (!isDelimiter ·) = rest := by
    cases rest with
    | nil => rfl
    | cons d rest => exact List.dropWhile_cons_of_neg (by rw [hrest d rfl]; decide)
  have hnext : ¬(c = '-' ∧ (w ++ rest).head? = some '>') := by
    rintro ⟨rfl, hhead⟩
    cases w with
    | nil => exact absurd (hrest _ hhead) (by decide)
    | cons d w =>
      obtain rfl : d = '>' := Option.some.inj hhead
      exact harrow ⟨[], w, rfl⟩
  rw [List.cons_append, tokensOf_lexed _ (not_blank_of_word hdelimiter), lexFrom_word hdelimiter hnext,
    List.takeWhile_append_of_pos htail, List.dropWhile_append_of_pos htail, htake, hdrop, List.append_nil]

/-- An arrow that touches a word becomes part of a name. -/
theorem tokensOf_word_arrow (rest : List Char) (hw : IsWord w) :
    ∃ name, Token.name name ∈ tokensOf (w ++ (arrow ++ rest)) ∧ ¬IsWord name.toList := by
  obtain ⟨hnil, hword, harrow⟩ := hw
  obtain ⟨c, w, rfl⟩ := List.exists_cons_of_ne_nil hnil
  have hdelimiter : isDelimiter c = false := hword c List.mem_cons_self
  have htail : ∀ d ∈ w, (!isDelimiter d) = true := fun d hd => by rw [hword d (List.mem_cons_of_mem c hd)]; rfl
  have hnext : ¬(c = '-' ∧ (w ++ (arrow ++ rest)).head? = some '>') := by
    rintro ⟨rfl, hhead⟩
    cases w with
    | nil => cases hhead
    | cons d w =>
      obtain rfl : d = '>' := Option.some.inj hhead
      exact harrow ⟨[], w, rfl⟩
  have htake : (w ++ (arrow ++ rest)).takeWhile (!isDelimiter ·) =
      w ++ (arrow ++ rest.takeWhile (!isDelimiter ·)) := by
    rw [List.takeWhile_append_of_pos htail]
    rfl
  refine ⟨String.ofList (c :: (w ++ (arrow ++ rest.takeWhile (!isDelimiter ·)))), ?_, ?_⟩
  · rw [List.cons_append, tokensOf_lexed _ (not_blank_of_word hdelimiter), lexFrom_word hdelimiter hnext, htake,
      wordToken, if_neg, if_neg]
    · exact List.mem_cons_self
    · cases w <;> exact fun h => by cases h
    · cases w <;> exact fun h => by cases h
  · rw [String.toList_ofList]
    exact fun h => h.2.2 ⟨c :: w, rest.takeWhile (!isDelimiter ·), by simp⟩

end

namespace Layout

variable {p : Piece} {layout layout' : Layout} {w : List Char}

theorem Valid.tail (h : Valid (p :: layout)) : Valid layout :=
  ⟨fun q hq => h.1 q (List.mem_cons_of_mem p hq), h.2.tail⟩

theorem Valid.head (h : Valid (p :: layout)) : p.Valid := h.1 p List.mem_cons_self

/-- What touches a word and is no arrow begins with a delimiter. -/
theorem Valid.delimiter (h : Valid (.word w :: layout)) (harrow : layout.head? ≠ some (.sign arrow)) (c : Char)
    (hc : (text layout).head? = some c) : isDelimiter c = true := by
  cases layout with
  | nil => cases hc
  | cons q layout =>
    have hq := h.tail.head
    cases q with
    | blank b =>
      obtain rfl : b = c := Option.some.inj hc
      exact isDelimiter_of_blank hq
    | word v => exact absurd ⟨rfl, rfl⟩ (List.isChain_cons_cons.mp h.2).1
    | sign spelling =>
      obtain ⟨token, htoken⟩ := Option.isSome_iff_exists.mp hq
      obtain ⟨d, rfl, hsingle⟩ | ⟨rfl, -⟩ | ⟨rfl, -⟩ | ⟨rfl, -⟩ := signToken_cases htoken
      · obtain rfl : d = c := Option.some.inj hc
        exact isDelimiter_of_single hsingle
      · exact absurd rfl harrow
      · obtain rfl := Option.some.inj hc
        rfl
      · obtain rfl := Option.some.inj hc
        rfl

/-- Without an arrow at a word the lexer reads what is spelled. -/
theorem Valid.tokensOf_text (h : Valid layout) (hparted : Parted layout) : tokensOf (text layout) = tokens layout := by
  induction layout with
  | nil => exact tokensOf_nil rfl
  | cons p layout ih =>
    have htail := ih h.tail hparted.tail
    rw [text, List.flatMap_cons]
    cases p with
    | blank c => exact (tokensOf_blank _ h.head).trans htail
    | word w =>
      have harrow : layout.head? ≠ some (.sign arrow) := by
        intro hhead
        obtain ⟨rest, rfl⟩ := List.head?_eq_some_iff.mp hhead
        exact (List.isChain_cons_cons.mp hparted).1 ⟨rfl, rfl⟩
      exact (tokensOf_word h.head (h.delimiter harrow)).trans (congrArg _ htail)
    | sign spelling =>
      obtain ⟨token, htoken⟩ := Option.isSome_iff_exists.mp h.head
      have hcons : tokens (.sign spelling :: layout) = token :: tokens layout := List.filterMap_cons_some htoken
      rw [hcons, ← htail]
      exact tokensOf_sign _ htoken

/-- Names without arrows come from words that no arrow touches. -/
theorem Valid.parted (h : Valid layout) (hnames : ∀ n, .name n ∈ tokensOf (text layout) → IsWord n.toList) :
    Parted layout := by
  induction layout with
  | nil => exact .nil
  | cons p layout ih =>
    rw [text, List.flatMap_cons] at hnames
    have hcons : Parted layout → (p.isWord = true → layout.head? ≠ some (.sign arrow)) → Parted (p :: layout) := by
      intro hparted harrow
      apply List.isChain_cons.mpr ⟨_, hparted⟩
      rintro q hq ⟨hp, rfl⟩
      exact harrow hp hq
    cases p with
    | blank c =>
      have htext : tokensOf (text layout) = tokensOf (c :: text layout) := (tokensOf_blank _ h.head).symm
      exact hcons (ih h.tail fun n hn => hnames n (htext ▸ hn)) fun hword => by cases hword
    | word w =>
      have harrow : layout.head? ≠ some (.sign arrow) := by
        intro hhead
        obtain ⟨rest, rfl⟩ := List.head?_eq_some_iff.mp hhead
        obtain ⟨name, hname, hword⟩ := tokensOf_word_arrow (text rest) h.head
        exact hword (hnames name hname)
      have htext := tokensOf_word h.head (h.delimiter harrow)
      exact hcons (ih h.tail fun n hn => hnames n (htext ▸ List.mem_cons_of_mem _ hn)) fun _ => harrow
    | sign spelling =>
      obtain ⟨token, htoken⟩ := Option.isSome_iff_exists.mp h.head
      have htext := tokensOf_sign (text layout) htoken
      exact hcons (ih h.tail fun n hn => hnames n (htext ▸ List.mem_cons_of_mem _ hn)) fun hword => by cases hword

/-- A text is spelled by a layout. -/
def Spelled (s : List Char) : Prop := ∃ layout : Layout, layout.Valid ∧ layout.text = s ∧ layout.tokens = tokensOf s

/-- A piece goes in front of the layout of what follows it. -/
theorem Spelled.cons {s : List Char} (h : Spelled s) (hp : p.Valid)
    (htokens : tokensOf (p.text ++ s) = p.token.toList ++ tokensOf s)
    (hword : p.isWord = true → ∀ d, s.head? = some d → isDelimiter d = true) : Spelled (p.text ++ s) := by
  obtain ⟨layout, hvalid, rfl, hlayout⟩ := h
  refine ⟨p :: layout, ⟨List.forall_mem_cons.mpr ⟨hp, hvalid.1⟩, List.isChain_cons.mpr ⟨?_, hvalid.2⟩⟩, rfl, ?_⟩
  · rintro q hq ⟨hpword, hqword⟩
    cases q with
    | word w =>
      obtain ⟨tail, rfl⟩ := List.head?_eq_some_iff.mp hq
      obtain ⟨hnil, hplain, -⟩ := hvalid.head
      obtain ⟨d, v, rfl⟩ := List.exists_cons_of_ne_nil hnil
      have hdelimiter := hword hpword d rfl
      rw [hplain d List.mem_cons_self] at hdelimiter
      cases hdelimiter
    | _ => cases hqword
  · rw [htokens, ← hlayout, tokens, List.filterMap_cons]
    cases p.token <;> rfl

theorem Spelled.blank {s : List Char} {c : Char} (h : Spelled s) (hc : isBlank c = true) : Spelled (c :: s) :=
  h.cons (p := .blank c) hc (tokensOf_blank _ hc) fun h => by cases h

theorem Spelled.sign {s : List Char} {token : Token} (h : Spelled s) (spelling : List Char)
    (htoken : signToken spelling = some token) : Spelled (spelling ++ s) := by
  apply h.cons (p := .sign spelling) (by rw [Piece.Valid, htoken]; rfl) _ fun h => by cases h
  rw [Piece.token, htoken]
  exact tokensOf_sign _ htoken

theorem isWord_of_wordToken {w : List Char} (h : ∀ n, wordToken w = .name n → IsWord n.toList) : IsWord w := by
  rw [wordToken] at h
  split_ifs at h with hzero hone
  · rw [hzero]
    decide
  · rw [hone]
    decide
  · have hword := h _ rfl
    rwa [String.toList_ofList] at hword

/-- A text whose names are words is spelled by a layout. -/
theorem spelled_of_words (s : List Char) (hnames : ∀ n, .name n ∈ tokensOf s → IsWord n.toList) : Spelled s := by
  induction hn : s.length using Nat.strong_induction_on generalizing s with
  | _ n ih =>
    cases s with
    | nil => exact ⟨[], ⟨List.forall_mem_nil _, .nil⟩, rfl, (tokensOf_nil rfl).symm⟩
    | cons c rest =>
      by_cases hblank : isBlank c = true
      · have htokens := tokensOf_blank rest hblank
        exact (ih _ (hn ▸ Nat.lt_succ_self _) rest (fun m hm => hnames m (htokens ▸ hm)) rfl).blank hblank
      rw [Bool.not_eq_true] at hblank
      have htokens := tokensOf_lexed rest hblank
      have hlength := lexFrom_length c rest
      have hmore : Spelled (lexFrom c rest).2 := by
        apply ih _ _ _ (fun m hm => hnames m (htokens ▸ List.mem_cons_of_mem _ hm)) rfl
        rw [← hn, List.length_cons]
        omega
      rw [lexFrom] at htokens hmore
      split at htokens
      · next token hsingle =>
        rw [hsingle] at hmore
        exact hmore.sign [c] hsingle
      next hsingle =>
      rw [hsingle] at hmore
      dsimp only at hmore
      split_ifs at htokens hmore with himp hiff
      · obtain ⟨hc, hhead⟩ := himp
        obtain ⟨tail, rfl⟩ := List.head?_eq_some_iff.mp hhead
        rcases hc with rfl | rfl <;> exact hmore.sign [_, '>'] (Eq.refl (some Token.imp))
      · obtain ⟨rfl, hhead⟩ := hiff
        obtain ⟨tail, rfl⟩ := List.head?_eq_some_iff.mp hhead
        exact hmore.sign ['=', '='] (Eq.refl (some Token.iff))
      rw [lexWord] at htokens hmore
      split_ifs at htokens hmore with hdelimiter
      · have hword := hnames _ (htokens ▸ List.mem_cons_self)
        rw [String.toList_ofList] at hword
        rw [hword.2.1 c List.mem_cons_self] at hdelimiter
        cases hdelimiter
      have hsplit : c :: rest.takeWhile (!isDelimiter ·) ++ rest.dropWhile (!isDelimiter ·) = c :: rest := by
        rw [List.cons_append, List.takeWhile_append_dropWhile]
      have hword : IsWord (c :: rest.takeWhile (!isDelimiter ·)) :=
        isWord_of_wordToken fun m hm => hnames m (htokens ▸ hm ▸ List.mem_cons_self)
      rw [← hsplit] at htokens ⊢
      apply hmore.cons (p := .word (c :: rest.takeWhile (!isDelimiter ·))) hword htokens
      intro _ d hd
      have hnot := List.head?_dropWhile_not (!isDelimiter ·) rest
      rw [hd] at hnot
      simpa using hnot

/-! Blanks around signs. -/

theorem Spaced.nonblank (h : Spaced layout layout') :
    layout'.filter (!Piece.isBlank ·) = layout.filter (!Piece.isBlank ·) := by
  cases h with
  | before first rest spelling c hc => simp [Piece.isBlank]
  | after first rest spelling c hc => simp [Piece.isBlank]

theorem tokens_nonblank (layout : Layout) : tokens (layout.filter (!Piece.isBlank ·)) = layout.tokens := by
  induction layout with
  | nil => rfl
  | cons p layout ih => cases p <;> simp_all [tokens, Piece.isBlank, Piece.token, List.filterMap_cons]

theorem separated_append {first : Layout} (hp : p.isWord = false) :
    Separated (first ++ p :: layout) ↔ Separated first ∧ Separated layout := by
  rw [Separated, List.isChain_append, List.isChain_cons]
  simp [hp, Separated]

theorem separated_cons (hp : p.isWord = false) : Separated (p :: layout) ↔ Separated layout := by
  rw [Separated, List.isChain_cons]
  simp [hp, Separated]

theorem Spaced.valid (h : Spaced layout layout') : layout'.Valid ↔ layout.Valid := by
  cases h with
  | before first rest spelling c hc =>
    have hblank : (Piece.blank c).Valid := hc
    rw [Valid, Valid, separated_append rfl, separated_cons rfl, separated_append rfl]
    simp only [List.forall_mem_append, List.forall_mem_cons, hblank, true_and]
  | after first rest spelling c hc =>
    have hblank : (Piece.blank c).Valid := hc
    rw [Valid, Valid, separated_append rfl, separated_cons rfl, separated_append rfl]
    simp only [List.forall_mem_append, List.forall_mem_cons, hblank, true_and]

/-- Respaced layouts spell the same tokens. -/
theorem Respaced.same (h : Respaced layout layout') :
    (layout.Valid ↔ layout'.Valid) ∧ layout.tokens = layout'.tokens ∧ (layout.Apart ↔ layout'.Apart) := by
  induction h with
  | rel layout layout' h =>
    refine ⟨h.valid.symm, ?_, ?_⟩
    · rw [← tokens_nonblank, ← tokens_nonblank layout', h.nonblank]
    · rw [Apart, Apart, h.nonblank]
  | refl => exact ⟨Iff.rfl, rfl, Iff.rfl⟩
  | symm _ _ _ ih => exact ⟨ih.1.symm, ih.2.1.symm, ih.2.2.symm⟩
  | trans _ _ _ _ _ ih ih' => exact ⟨ih.1.trans ih'.1, ih.2.1.trans ih'.2.1, ih.2.2.trans ih'.2.2⟩

theorem Respaced.cons (p : Piece) (h : Respaced layout layout') : Respaced (p :: layout) (p :: layout') := by
  induction h with
  | rel layout layout' h =>
    cases h with
    | before first rest spelling c hc => exact .rel _ _ (.before (p :: first) rest spelling c hc)
    | after first rest spelling c hc => exact .rel _ _ (.after (p :: first) rest spelling c hc)
  | refl => exact .refl _
  | symm _ _ _ ih => exact ih.symm
  | trans _ _ _ _ _ ih ih' => exact ih.trans _ _ _ ih'

theorem apart_cons : Apart (p :: layout) ↔
    Apart layout ∧ (p.isWord = true → (layout.filter (!Piece.isBlank ·)).head? ≠ some (.sign arrow)) := by
  cases p with
  | blank c => simp [Apart, Piece.isBlank, Piece.isWord]
  | word w =>
    rw [Apart, List.filter_cons_of_pos rfl, Parted, List.isChain_cons, Apart, Parted, and_comm]
    refine and_congr_right fun _ => ⟨fun h _ hhead => h _ hhead ⟨rfl, rfl⟩, fun h q hq hpair => ?_⟩
    exact h rfl (hpair.2 ▸ hq)
  | sign spelling =>
    rw [Apart, List.filter_cons_of_pos rfl, Parted, List.isChain_cons, Apart, Parted, and_comm]
    simp [Piece.isWord]

theorem Apart.parted (h : layout.Apart) : layout.Parted := by
  induction layout with
  | nil => exact .nil
  | cons p layout ih =>
    obtain ⟨htail, hhead⟩ := apart_cons.mp h
    apply List.isChain_cons.mpr ⟨_, ih htail⟩
    rintro q hq ⟨hp, rfl⟩
    obtain ⟨rest, rfl⟩ := List.head?_eq_some_iff.mp hq
    exact hhead hp rfl

/-- Blanks in front of a sign can go. -/
theorem respaced_blanks {blanks rest : Layout} {spelling : List Char}
    (hblanks : ∀ p ∈ blanks, p.Valid ∧ p.isBlank = true) :
    Respaced (blanks ++ .sign spelling :: rest) (.sign spelling :: rest) := by
  induction blanks with
  | nil => exact .refl _
  | cons p blanks ih =>
    obtain ⟨⟨hp, hpblank⟩, htail⟩ := List.forall_mem_cons.mp hblanks
    cases p with
    | blank c =>
      have hlast : Respaced (.blank c :: .sign spelling :: rest) (.sign spelling :: rest) :=
        .symm _ _ (.rel _ _ (.before [] rest spelling c hp))
      exact ((ih htail).cons (.blank c)).trans _ _ _ hlast
    | _ => cases hpblank

/-- Without blanks, an arrow after a word touches it. -/
theorem Valid.exists_not_parted (h : Valid layout) (hapart : ¬Apart layout) :
    ∃ layout', Respaced layout layout' ∧ ¬Parted layout' := by
  induction layout with
  | nil => exact absurd .nil hapart
  | cons p layout ih =>
    by_cases htail : Apart layout
    · rw [apart_cons, not_and, Classical.not_imp, not_not] at hapart
      obtain ⟨hp, hhead⟩ := hapart htail
      obtain ⟨rest, hfilter⟩ := List.head?_eq_some_iff.mp hhead
      obtain ⟨blanks, rest', rfl, hblanks, -⟩ := List.filter_eq_cons_iff.mp hfilter
      have hrespaced : Respaced (blanks ++ .sign arrow :: rest') (.sign arrow :: rest') :=
        respaced_blanks fun q hq => ⟨h.tail.1 q (List.mem_append_left _ hq), by simpa using hblanks q hq⟩
      exact ⟨_, hrespaced.cons p, fun hparted => (List.isChain_cons_cons.mp hparted).1 ⟨hp, rfl⟩⟩
    · obtain ⟨layout', hrespaced, hparted⟩ := ih h.tail htail
      exact ⟨_, hrespaced.cons p, fun h => hparted h.tail⟩

end Layout

end Opto.Liberty
