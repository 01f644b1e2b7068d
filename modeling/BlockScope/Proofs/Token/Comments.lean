import BlockScope.Proofs.Token.Lookahead
import BlockScope.Proofs.Token.Stepwise
import Mathlib.Logic.Basic
/-!
# Comments and blanks

A comment between two tokens is as good as a blank, but for a bar that stands directly before it: the slash of the comment is
an operator byte, so the bar is read as an operator, where before a blank it is a mark of its own.
-/
namespace BlockScope
open Text

/-- The text starts with a comment. -/
def StartsComment (x : List UInt8) : Prop := ∃ x', x = byte '/' :: x' ∧ opensComment x'

section
variable {x y u : List UInt8} {q : UInt8 → Bool} {first : UInt8} {op : Bool}

theorem StartsComment.ends (hx : StartsComment x) : Ends x := by
  obtain ⟨x', rfl, -⟩ := hx
  exact ends_cons (.inr rfl) x'

theorem StartsComment.ne_nil (hx : StartsComment x) : x ≠ [] := by
  obtain ⟨x', rfl, -⟩ := hx
  exact List.cons_ne_nil _ _

/-! ## Scans that end before a comment -/

/-- A run that would go on into what follows, but does not, ends in what stands before. -/
theorem takeWhile_cut (hx : atByte q x) (h : ((u ++ x).takeWhile q).length ≤ u.length) :
    (u ++ y).takeWhile q = (u ++ x).takeWhile q := by
  induction u with
  | nil =>
    cases x with
    | nil => cases hx
    | cons b rest =>
      have hb : q b = true := hx
      rw [List.nil_append, List.takeWhile_cons_of_pos hb] at h
      cases h
  | cons b u ih =>
    rw [List.cons_append, List.cons_append, List.takeWhile_cons, List.takeWhile_cons]
    rw [List.cons_append, List.takeWhile_cons] at h
    split at h
    · next hb => rw [if_pos hb, if_pos hb, ih (Nat.le_of_succ_le_succ h)]
    · next hb => rw [if_neg hb, if_neg hb]

theorem scanLineComment_cut (hx : StartsComment x) (h : (scanLineComment (u ++ x)).more ≤ u.length) :
    scanLineComment (u ++ y) = scanLineComment (u ++ x) := by
  cases u with
  | nil => exact absurd h (Nat.not_succ_le_zero _)
  | cons b u =>
    obtain ⟨x', rfl, -⟩ := hx
    have hsame := takeWhile_cut (q := (· ≠ 0x0A)) (y := y) rfl (Nat.le_of_succ_le_succ h)
    simp only [scanLineComment, List.cons_append, List.tail_cons, hsame]

theorem stringBody_taken_pos (hx : x ≠ []) : 0 < (stringBody x).taken := by
  cases x with
  | nil => exact absurd rfl hx
  | cons b rest =>
    unfold stringBody
    repeat' split
    all_goals exact Nat.succ_pos _

/-- A string that ends before what follows is the same whatever follows. -/
theorem stringBody_cut (hx : x ≠ []) (u : List UInt8) (h : (stringBody (u ++ x)).taken ≤ u.length) :
    stringBody (u ++ y) = stringBody (u ++ x) := by
  match u with
  | [] => exact absurd (stringBody_taken_pos hx) (Nat.not_lt.2 h)
  | [a] =>
    -- Only a quote is no longer than this.
    have hpos := stringBody_taken_pos hx
    rw [List.singleton_append, stringBody_cons] at h
    rw [List.singleton_append, List.singleton_append, stringBody_cons, stringBody_cons]
    split at h
    · next hquote => rw [if_pos hquote, if_pos hquote]
    · split at h
      · match x, hx with
        | b :: rest, _ => exact absurd h (by simp)
      · exact absurd h (by simp; omega)
  | a :: b :: u =>
    show stringBody (a :: (b :: u ++ y)) = stringBody (a :: (b :: u ++ x))
    rw [stringBody_cons a (b :: u ++ y), stringBody_cons a (b :: u ++ x)]
    rw [List.cons_append, stringBody_cons] at h
    split at h
    · next hquote => rw [if_pos hquote, if_pos hquote]
    next hquote =>
    rw [if_neg hquote, if_neg hquote]
    split at h
    · next hescape =>
      rw [if_pos hescape, if_pos hescape]
      simp only [List.cons_append, List.length_cons] at h ⊢
      rw [stringBody_cut hx u (by omega)]
    · next hescape =>
      rw [if_neg hescape, if_neg hescape]
      simp only [List.length_cons] at h ⊢
      rw [stringBody_cut hx (b :: u) (by rw [List.length_cons]; omega)]
  termination_by u.length

theorem CommentBody.taken_after (text : List UInt8) (body : CommentBody) : (body.after text).taken = text.length + body.taken := rfl

theorem commentBody_taken_pos (hx : x ≠ []) (depth : Nat) : 0 < (commentBody depth x).taken := by
  unfold commentBody
  split
  · exact absurd rfl hx
  · exact Nat.succ_pos _
  · split
    · exact Nat.add_pos_left (Nat.succ_pos 1) _
    · split
      · split
        · exact Nat.succ_pos 1
        · exact Nat.add_pos_left (Nat.succ_pos 1) _
      · exact Nat.add_pos_left (Nat.succ_pos 0) _

theorem commentBody_cons (depth : Nat) (a b : UInt8) (rest : List UInt8) : commentBody depth (a :: b :: rest) =
    if a = byte '/' ∧ b = byte '*' then (commentBody (depth + 1) rest).after [a, b]
    else if a = byte '*' ∧ b = byte '/' then
      match depth with
      | 0 => ⟨[], 2, true⟩
      | depth + 1 => (commentBody depth rest).after [a, b]
    else (commentBody depth (b :: rest)).after [a] :=
  commentBody.eq_def depth (a :: b :: rest)

theorem commentBody_cut (hx : x ≠ []) (depth : Nat) (u : List UInt8) (h : (commentBody depth (u ++ x)).taken ≤ u.length) :
    commentBody depth (u ++ y) = commentBody depth (u ++ x) := by
  match u with
  | [] => exact absurd (commentBody_taken_pos hx depth) (Nat.not_lt.2 h)
  | [a] =>
    -- Neither a mark nor a single byte more fits in.
    match x, hx with
    | b :: rest, hx =>
      have hpos := commentBody_taken_pos hx depth
      rw [List.singleton_append, commentBody_cons, List.length_singleton] at h
      split at h
      · simp only [CommentBody.taken_after, List.length_cons, List.length_nil] at h
        omega
      · split at h
        · cases depth with
          | zero => exact absurd h (Nat.not_succ_le_self 1)
          | succ depth =>
            simp only [CommentBody.taken_after, List.length_cons, List.length_nil] at h
            omega
        · rw [CommentBody.taken_after, List.length_singleton] at h
          omega
  | a :: b :: u =>
    rw [List.cons_append, List.cons_append, List.cons_append, List.cons_append, commentBody_cons, commentBody_cons]
    rw [List.cons_append, List.cons_append, commentBody_cons] at h
    split at h
    · next hopen =>
      rw [if_pos hopen, if_pos hopen]
      simp only [CommentBody.taken_after, List.length_cons, List.length_nil] at h
      rw [commentBody_cut hx _ u (by omega)]
    next hopen =>
    rw [if_neg hopen, if_neg hopen]
    split at h
    · next hclose =>
      rw [if_pos hclose, if_pos hclose]
      cases depth with
      | zero => rfl
      | succ depth =>
        simp only [CommentBody.taken_after, List.length_cons, List.length_nil] at h
        simp only
        rw [commentBody_cut hx _ u (by omega)]
    · next hclose =>
      rw [if_neg hclose, if_neg hclose]
      simp only [CommentBody.taken_after, List.length_cons, List.length_nil] at h
      rw [← List.cons_append, ← List.cons_append, commentBody_cut hx _ (b :: u) (by
        rw [List.cons_append, List.length_cons]
        omega)]
  termination_by u.length

theorem scanBlockComment_cut (hx : x ≠ []) (h : (scanBlockComment (u ++ x)).more ≤ u.length) :
    scanBlockComment (u ++ y) = scanBlockComment (u ++ x) := by
  have hmore : ∀ rest, (scanBlockComment rest).more = (commentBody 0 rest.tail).taken + 1 := by
    intro rest
    unfold scanBlockComment
    dsimp only
    split <;> rfl
  rw [hmore] at h
  cases u with
  | nil => exact absurd h (Nat.not_succ_le_zero _)
  | cons b u =>
    have hsame := commentBody_cut (y := y) hx 0 u (Nat.le_of_succ_le_succ h)
    rw [scanBlockComment, scanBlockComment, List.cons_append, List.cons_append, List.tail_cons, List.tail_cons, hsame]

theorem scanString_cut (hx : x ≠ []) (h : (scanString (u ++ x)).more ≤ u.length) : scanString (u ++ y) = scanString (u ++ x) := by
  have hmore : ∀ rest, (scanString rest).more = (stringBody rest).taken := by
    intro rest
    unfold scanString
    dsimp only
    split <;> rfl
  rw [hmore] at h
  simp only [scanString, stringBody_cut (y := y) hx u h]

theorem scanCharacter_cut (hx : StartsComment x) (hy : Ends y) (h : (scanCharacter (u ++ x)).more ≤ u.length) :
    scanCharacter (u ++ y) = scanCharacter (u ++ x) := by
  cases u with
  | nil =>
    obtain ⟨x', rfl, -⟩ := hx
    exact absurd h (Nat.not_succ_le_zero _)
  | cons b u => rw [scanCharacter, scanCharacter, decode_append hx.ends, decode_append hy]

theorem scanSymbol_cut (hx : StartsComment x) (hy : Ends y) (h : (scanSymbol (u ++ x)).more ≤ u.length) :
    scanSymbol (u ++ y) = scanSymbol (u ++ x) := by
  have hparts : isWordChar ' ' = false ∧ isWordChar '/' = false := wordChar_ends
  have hrun : ∀ z, Ends z → charRun (fun c => isWordChar c || c = ':') (u ++ z) = charRun (fun c => isWordChar c || c = ':') u :=
    fun z hz => charRun_append hz (by simp [hparts.1]) (by simp [hparts.2]) u
  unfold scanSymbol at h ⊢
  rw [atByte_append hx.ends (by decide) (by decide), atWord_append hx.ends, hrun x hx.ends] at h ⊢
  rw [atByte_append hy (by decide) (by decide), atWord_append hy, hrun y hy]
  split at h
  · next hparen => rw [if_pos hparen, if_pos hparen]
  next hparen =>
  rw [if_neg hparen, if_neg hparen]
  split at h
  · next hword => rw [if_pos hword, if_pos hword]
  next hword =>
  rw [if_neg hword, if_neg hword]
  have hslash : atByte isOperatorByte x := by
    obtain ⟨x', rfl, -⟩ := hx
    rfl
  cases u with
  | nil =>
    -- The slash of the comment would be part of the symbol.
    obtain ⟨x', rfl, -⟩ := hx
    rw [List.nil_append, if_pos hslash, List.takeWhile_cons_of_pos (by decide)] at h
    cases h
  | cons b u =>
    have hat : ∀ z : List UInt8, atByte isOperatorByte (b :: u ++ z) = isOperatorByte b := fun _ => rfl
    rw [hat] at h ⊢
    rw [hat]
    split at h
    · next hop => rw [if_pos hop, if_pos hop, takeWhile_cut hslash h]
    · next hop => rw [if_neg hop, if_neg hop]

theorem operatorRun_cut (hx : StartsComment x) (post : List UInt8) (h : u.drop (operatorRun (u ++ x)).length ≠ [byte '/']) :
    operatorRun (u ++ 0x20 :: post) = operatorRun (u ++ x) := by
  obtain ⟨x', rfl, hopens⟩ := hx
  have hstop : operatorRun (byte '/' :: x') = [] := by
    rw [operatorRun, hopens]
    rfl
  induction u with
  | nil =>
    rw [List.nil_append, List.nil_append, hstop]
    rfl
  | cons b u ih =>
    rw [List.cons_append, operatorRun] at h
    rw [List.cons_append, List.cons_append, operatorRun, operatorRun]
    cases u with
    | nil =>
      -- A slash right before the comment would start one itself.
      have hb : b ≠ byte '/' := by
        rintro rfl
        exact h rfl
      simp only [List.nil_append, hb, decide_false, Bool.false_and, hstop]
      rfl
    | cons c u =>
      have hsame : ∀ z : List UInt8, opensComment (c :: u ++ z) = opensComment [c] := fun _ => rfl
      rw [hsame] at h ⊢
      rw [hsame]
      split at h
      · next hop => rw [if_pos hop, if_pos hop, ih h]
      · next hop => rw [if_neg hop, if_neg hop]

/-! ## Any scan before a comment -/

/-- A token that ends before a comment is the same before a blank, unless it is a bar right before it. The slash excluded here
would start a comment of its own. -/
theorem scan_cut (hx : StartsComment x) (post : List UInt8) (hmore : (scan op first (u ++ x)).more ≤ u.length)
    (hslash : u.drop (scan op first (u ++ x)).more ≠ [byte '/']) (hbar : ¬ (first = byte '|' ∧ u = [])) :
    scan op first (u ++ 0x20 :: post) = scan op first (u ++ x) := by
  have hy : Ends (0x20 :: post) := ends_cons (.inl rfl) post
  have hsame : ∀ q, u ≠ [] → atByte q (u ++ 0x20 :: post) = atByte q (u ++ x) := by
    intro q hu
    cases u with
    | nil => exact absurd rfl hu
    | cons b u => rfl
  have hfirst : first = byte '/' → u ≠ [] := by
    rintro rfl rfl
    obtain ⟨x', rfl, -⟩ := hx
    exact absurd hmore (Nat.not_succ_le_zero _)
  have hopen : ∀ q, (first = byte '/' ∧ atByte q (u ++ 0x20 :: post)) = (first = byte '/' ∧ atByte q (u ++ x)) := by
    intro q
    by_cases h : first = byte '/'
    · rw [hsame q (hfirst h)]
    · simp [h]
  have hbars : (first = byte '|' ∧ !atByte isOperatorByte (u ++ 0x20 :: post)) =
      (first = byte '|' ∧ !atByte isOperatorByte (u ++ x)) := by
    by_cases h : first = byte '|'
    · rw [hsame _ fun hu => hbar ⟨h, hu⟩]
    · simp [h]
  have hdigit : atByte isDigit (u ++ 0x20 :: post) = atByte isDigit (u ++ x) := by
    rw [atByte_append hy (by decide) (by decide), atByte_append hx.ends (by decide) (by decide)]
  have hword : atWord (first :: (u ++ 0x20 :: post)) = atWord (first :: (u ++ x)) := by
    rw [← List.cons_append, ← List.cons_append, atWord_append hy, atWord_append hx.ends]
  have hroute : routeOf op first (u ++ 0x20 :: post) = routeOf op first (u ++ x) := by
    unfold routeOf
    simp only [hopen, hbars, hdigit, hword]
  rw [scan_eq_route] at hmore hslash
  rw [scan_eq_route, scan_eq_route, hroute]
  generalize routeOf op first (u ++ x) = route at hmore hslash
  cases route with
  | lineComment => exact scanLineComment_cut hx hmore
  | blockComment => exact scanBlockComment_cut hx.ne_nil hmore
  | string => exact scanString_cut hx.ne_nil hmore
  | symbol => exact scanSymbol_cut hx hy hmore
  | character => exact scanCharacter_cut hx hy hmore
  | sole | bar => rfl
  | number => exact (scanNumber_append hy (first :: u)).trans (scanNumber_append hx.ends (first :: u)).symm
  | colon => exact (scanColon_append hy u).trans (scanColon_append hx.ends u).symm
  | operator => rw [Route.scan, Route.scan, scanOperator, scanOperator, operatorRun_cut hx post hslash]
  | word => exact (scanWord_append hy (first :: u)).trans (scanWord_append hx.ends (first :: u)).symm
  | unexpected => exact (scanUnexpected_append hy first u).trans (scanUnexpected_append hx.ends first u).symm

end

/-! ## Which scans find comments -/

namespace Scan
variable {bytes rest : List UInt8}

theorem string_not_comment : (scanString rest).kind.isComment = false := by
  unfold scanString
  dsimp only
  split <;> rfl

theorem symbol_not_comment : (scanSymbol rest).kind.isComment = false := by
  unfold scanSymbol
  repeat' split
  all_goals rfl

theorem character_not_comment : (scanCharacter rest).kind.isComment = false := by
  unfold scanCharacter
  split <;> rfl

theorem number_not_comment : (scanNumber bytes).kind.isComment = false := by
  unfold scanNumber scanRadix integerKind floatKind
  dsimp only
  repeat' split
  all_goals rfl

theorem colon_not_comment : (scanColon rest).kind.isComment = false := by
  unfold scanColon
  repeat' split
  all_goals rfl

theorem word_not_comment : (scanWord bytes).kind.isComment = false := by
  unfold scanWord
  dsimp only
  repeat' split
  all_goals rfl

theorem unexpected_not_comment : (scanUnexpected bytes).kind.isComment = false := by
  unfold scanUnexpected
  split <;> rfl

end Scan

/-- Only a slash and what opens a comment lead to one. -/
theorem startsComment_of_route {op : Bool} {first : UInt8} {rest : List UInt8}
    (h : routeOf op first rest = .lineComment ∨ routeOf op first rest = .blockComment) : StartsComment (first :: rest) := by
  have hopens : ∀ c : Char, c = '/' ∨ c = '*' → first = byte '/' ∧ atByte (· = byte c) rest → StartsComment (first :: rest) := by
    rintro c hc ⟨rfl, hat⟩
    cases rest with
    | nil => cases hat
    | cons b rest =>
      have hb : b = byte c := of_decide_eq_true hat
      refine ⟨_, rfl, ?_⟩
      rcases hc with rfl | rfl <;> rw [hb] <;> rfl
  by_cases hline : first = byte '/' ∧ atByte (· = byte '/') rest
  · exact hopens '/' (.inl rfl) hline
  by_cases hblock : first = byte '/' ∧ atByte (· = byte '*') rest
  · exact hopens '*' (.inr rfl) hblock
  rw [routeOf, if_neg hline, if_neg hblock] at h
  generalize soleMark first = mark at h
  cases mark with
  | some mark => simp [ite_eq_iff] at h
  | none => simp [ite_eq_iff] at h

open Scan in
/-- A scan that finds a comment stands at one. -/
theorem startsComment_of_scan {op : Bool} {first : UInt8} {rest : List UInt8} (h : (scan op first rest).kind.isComment) :
    StartsComment (first :: rest) := by
  rw [scan_eq_route] at h
  cases hr : routeOf op first rest with
  | lineComment => exact startsComment_of_route (.inl hr)
  | blockComment => exact startsComment_of_route (.inr hr)
  | string => exact absurd (hr ▸ h) (Bool.eq_false_iff.1 string_not_comment)
  | symbol => exact absurd (hr ▸ h) (Bool.eq_false_iff.1 symbol_not_comment)
  | character => exact absurd (hr ▸ h) (Bool.eq_false_iff.1 character_not_comment)
  | number => exact absurd (hr ▸ h) (Bool.eq_false_iff.1 number_not_comment)
  | colon => exact absurd (hr ▸ h) (Bool.eq_false_iff.1 colon_not_comment)
  | word => exact absurd (hr ▸ h) (Bool.eq_false_iff.1 word_not_comment)
  | unexpected => exact absurd (hr ▸ h) (Bool.eq_false_iff.1 unexpected_not_comment)
  | sole | bar | operator =>
    rw [hr] at h
    cases h

/-! ## Bars -/

theorem word_not_operator (bytes : List UInt8) (name : String) : (scanWord bytes).kind ≠ .operator name := by
  unfold scanWord
  dsimp only
  repeat' split
  all_goals simp

/-- The operator `|` is a bar and nothing else. -/
theorem scan_eq_bar {op : Bool} {first : UInt8} {rest : List UInt8} (h : (scan op first rest).kind = .operator "|") :
    first = byte '|' ∧ (scan op first rest).more = 0 := by
  rcases scan_cases op first rest with hno | hword | ⟨-, hop⟩
  · exact absurd h (hno "|").2.2.1
  · rw [hword] at h
    exact absurd h (word_not_operator _ _)
  · rw [hop] at h ⊢
    have hname : latin1 (first :: operatorRun rest) = "|" := TokenKind.operator.inj h
    have hchars := congrArg String.toList hname
    simp only [latin1, String.toList_ofList, List.map_cons] at hchars
    obtain ⟨hfirst, hrest⟩ := List.cons.inj hchars
    have hrun : operatorRun rest = [] := List.map_eq_nil_iff.1 hrest
    refine ⟨UInt8.toNat_inj.1 ?_, by rw [scanOperator, hrun]; rfl⟩
    rw [← ofNat_toNat_byte, hfirst]
    rfl

/-- Before a comment a bar is an operator, and before a blank it is a mark. -/
theorem scan_bar {x : List UInt8} (hx : StartsComment x) (op : Bool) (post : List UInt8) :
    scan op (byte '|') x = ⟨.operator "|", "|", 0⟩ ∧ scan op (byte '|') (0x20 :: post) = ⟨.mark .bar, "|", 0⟩ := by
  obtain ⟨x', rfl, hopens⟩ := hx
  refine ⟨?_, rfl⟩
  have hrun : operatorRun (byte '/' :: x') = [] := by
    rw [operatorRun, hopens]
    rfl
  calc scan op (byte '|') (byte '/' :: x')
    _ = scanOperator (byte '|') (byte '/' :: x') := rfl
    _ = ⟨.operator "|", "|", 0⟩ := by rw [scanOperator, hrun]; rfl

/-! ## A blank in place of what follows -/

/-- The kind of a token when a blank stands at this place: a bar right before it is a mark. -/
def Token.kindBefore (t : Token) (place : Position) : TokenKind :=
  if t.kind = .operator "|" ∧ t.span.stop = place then .mark .bar else t.kind

namespace Lexer
variable {l l' l₁ : Lexer} {bytes x u v post : List UInt8} {t : Token} {ts : List Token} {n : Nat}

/-- Two lexers with the same text ahead, up to where one of them has something else. -/
structure Beside (x y u : List UInt8) (l l' : Lexer) : Prop where
  left : l.rest = u ++ x
  right : l'.rest = u ++ y
  afterOperand : l'.afterOperand = l.afterOperand
  ended : l'.ended = l.ended

theorem dropWhile_startsComment (hx : StartsComment x) : x.dropWhile isBlank = x := by
  obtain ⟨x', rfl, -⟩ := hx
  exact List.dropWhile_cons_of_neg (by decide)

/-- Where a comment is next, reading takes some of it. -/
theorem not_suffix_of_blank (hx : StartsComment x) (hl : l.rest.dropWhile isBlank = x) : ¬ x <:+ l.nextToken.2.rest := by
  intro hsuffix
  obtain ⟨x', rfl, -⟩ := hx
  have hle := hsuffix.length_le
  rw [(nextToken_of_rest hl).2.1, List.length_drop, List.length_cons] at hle
  omega

/-- One token before a comment. -/
theorem Beside.nextToken (h : Beside x (0x20 :: post) u l l') (hx : StartsComment x) (hv : l.nextToken.2.rest = v ++ x)
    (hslash : v ≠ [byte '/']) : Beside x (0x20 :: post) v l.nextToken.2 l'.nextToken.2 ∧
      l'.nextToken.1.kind = if l.nextToken.1.kind = .operator "|" ∧ v = [] then .mark .bar else l.nextToken.1.kind := by
  have hdrop : ∀ z, (u ++ z).dropWhile isBlank =
      if (u.dropWhile isBlank).isEmpty then z.dropWhile isBlank else u.dropWhile isBlank ++ z := fun z => List.dropWhile_append
  cases hu : u.dropWhile isBlank with
  | nil =>
    have hl : l.rest.dropWhile isBlank = x := by
      rw [h.left, hdrop, hu, List.isEmpty_nil, if_pos rfl, dropWhile_startsComment hx]
    exact absurd (hv ▸ List.suffix_append v x) (not_suffix_of_blank hx hl)
  | cons first w =>
    simp only [hu, List.isEmpty_cons, Bool.false_eq_true, if_false, List.cons_append] at hdrop
    obtain ⟨hkind, hrest, hoperand, hended⟩ := nextToken_of_rest (l := l) (by rw [h.left, hdrop])
    obtain ⟨hkind', hrest', hoperand', hended'⟩ := nextToken_of_rest (l := l') (by rw [h.right, hdrop])
    rw [h.afterOperand] at hkind' hrest' hoperand'
    rw [hrest] at hv
    have hmore : (scan l.afterOperand first (w ++ x)).more ≤ w.length := by
      have hlength := congrArg List.length hv
      have := List.length_pos_iff.2 hx.ne_nil
      simp only [List.length_drop, List.length_append] at hlength
      omega
    rw [List.drop_append_of_le_length hmore] at hv
    have hw : w.drop (scan l.afterOperand first (w ++ x)).more = v := List.append_cancel_right hv
    by_cases hbar : first = byte '|' ∧ w = []
    · obtain ⟨rfl, rfl⟩ := hbar
      obtain ⟨hcomment, hblank⟩ := scan_bar hx l.afterOperand post
      rw [List.nil_append] at hkind hrest hoperand hkind' hrest' hoperand'
      rw [hcomment] at hkind hrest hoperand
      rw [hblank] at hkind' hrest' hoperand'
      rw [List.drop_nil] at hw
      subst hw
      refine ⟨⟨hrest, hrest', by rw [hoperand, hoperand']; rfl, by rw [hended, hended', h.ended]⟩, ?_⟩
      rw [hkind', hkind, if_pos ⟨rfl, rfl⟩]
    · have hsame := scan_cut hx post hmore (by rw [hw]; exact hslash) hbar
      rw [hsame] at hkind' hrest' hoperand'
      refine ⟨⟨by rw [hrest, List.drop_append_of_le_length hmore, hw], ?_, by rw [hoperand, hoperand'], by
        rw [hended, hended', h.ended]⟩, ?_⟩
      · rw [hrest', List.drop_append_of_le_length hmore, hw]
      · rw [hkind', hkind, if_neg]
        rintro ⟨hop, rfl⟩
        obtain ⟨rfl, hzero⟩ := scan_eq_bar hop
        rw [hzero, List.drop_zero] at hw
        exact hbar ⟨rfl, hw⟩

/-- A slash right before a comment is read into it. -/
theorem Reads.ne_slash (h : l.Reads ts l₁) (hx : StartsComment x) (hl : l.rest = u ++ x) (hv : l₁.rest = v ++ x)
    (hblank : ∀ b ∈ v, isBlank b) : u ≠ [byte '/'] := by
  rintro rfl
  cases h with
  | nil =>
    have hv' : v = [byte '/'] := List.append_cancel_right (hv.symm.trans hl)
    rw [hv'] at hblank
    exact absurd (hblank (byte '/') (by simp)) (by decide)
  | cons _ rest =>
    obtain ⟨x', rfl, -⟩ := hx
    have hdrop : l.rest.dropWhile isBlank = byte '/' :: byte '/' :: x' := by
      rw [hl]
      exact dropWhile_startsComment ⟨_, rfl, rfl⟩
    have hline : scan l.afterOperand (byte '/') (byte '/' :: x') = scanLineComment (byte '/' :: x') := rfl
    have hle := ((List.suffix_append v (byte '/' :: x')).trans (hv ▸ rest.suffix)).length_le
    rw [(nextToken_of_rest hdrop).2.1, hline, scanLineComment, List.drop_succ_cons, List.length_drop, List.length_cons] at hle
    omega

/-- All tokens before a comment. -/
theorem Reads.beside (h : l.Reads ts l₁) (hx : StartsComment x) (hl : l.At bytes n) {s : Nat} (hs : bytes.drop s = x)
    (hb : Beside x (0x20 :: post) u l l') (hv : l₁.rest = v ++ x) (hblank : ∀ b ∈ v, isBlank b) :
    ∃ ts' l₁', l'.Reads ts' l₁' ∧ Beside x (0x20 :: post) v l₁ l₁' ∧
      ts'.map (·.kind) = ts.map (·.kindBefore (placeAt bytes s)) := by
  induction h generalizing l' u n with
  | nil =>
    obtain rfl : u = v := List.append_cancel_right (hb.left.symm.trans hv)
    exact ⟨[], l', .nil, hb, rfl⟩
  | @cons l l₁ ts hended rest ih =>
    -- What is left after the first token still ends with the comment.
    obtain ⟨w, hw⟩ := rest.suffix
    rw [hv, ← List.append_assoc] at hw
    obtain ⟨hnext, hkind⟩ := hb.nextToken hx hw.symm (rest.ne_slash hx hw.symm hv hblank)
    obtain ⟨m, -, hat, hstop⟩ := hl.nextToken
    obtain ⟨ts', l₁', hreads, hb', hkinds⟩ := ih hat hnext hv
    refine ⟨_, l₁', .cons (hb.ended.trans hended) hreads, hb', ?_⟩
    rw [List.map_cons, List.map_cons, hkinds, hkind, Token.kindBefore, hstop]
    have hplace : w ++ v = [] ↔ placeAt bytes m = placeAt bytes s := by
      have hlength := congrArg List.length hw
      have hpos := List.length_pos_iff.2 hx.ne_nil
      have hle := hat.le
      rw [hat.rest, List.length_append, ← hs, List.length_drop, List.length_drop] at hlength
      rw [← hs, List.length_drop] at hpos
      rw [← List.length_eq_zero_iff]
      constructor
      · intro hzero
        rw [show m = s by omega]
      · intro hsame
        have : m = s := congrArg Position.offset hsame
        omega
    simp only [hplace]

/-- A comment that is next starts right behind the blanks. -/
theorem startsComment_of_nextToken (h : l.nextToken.1.kind.isComment) :
    StartsComment (l.rest.dropWhile isBlank) ∧ l.nextToken.2.afterOperand = l.afterOperand ∧ l.nextToken.2.ended = l.ended ∧
      l.nextToken.2.rest.length < (l.rest.dropWhile isBlank).length := by
  cases hdrop : l.rest.dropWhile isBlank with
  | nil =>
    rw [nextToken, hdrop] at h
    cases h
  | cons first rest =>
    obtain ⟨hkind, hrest, hoperand, hended⟩ := nextToken_of_rest hdrop
    rw [hkind] at h
    rw [hrest, hoperand, if_pos h, List.length_drop, List.length_cons]
    exact ⟨startsComment_of_scan h, rfl, hended, by omega⟩

end Lexer

/-! ## Comments as blanks -/

/-- The kinds of all tokens that are no comments. -/
def significant (bytes : List UInt8) : List TokenKind := ((tokenize bytes).map (·.kind)).filter (!·.isComment)

/-- The text with one blank in place of a stretch. -/
def blankOut (bytes : List UInt8) (span : Span) : List UInt8 := bytes.take span.start.offset ++ 0x20 :: bytes.drop span.stop.offset

theorem Token.isComment_kindBefore (t : Token) (place : Position) : (t.kindBefore place).isComment = t.kind.isComment := by
  unfold kindBefore
  split
  · next h =>
    rw [h.1]
    rfl
  · rfl

/-- The tokens of a text with a blank in place of a comment. -/
theorem kinds_blankOut {bytes : List UInt8} {t : Token} (ht : t ∈ tokenize bytes) (hc : t.kind.isComment) :
    ∃ before after, tokenize bytes = before ++ t :: after ∧
      (tokenize (blankOut bytes t.span)).map (·.kind) = (before ++ after).map (·.kindBefore t.span.start) := by
  obtain ⟨ts, l₁, hreads, hended, rfl⟩ := Lexer.Reads.of_mem_run ht
  have hstart : (Lexer.ofBytes bytes).At bytes 0 := ⟨Nat.zero_le _, rfl, (placeAt_zero bytes).symm⟩
  obtain ⟨n, -, hat⟩ := hreads.at hstart
  obtain ⟨hdrop, hplace⟩ := hat.start
  obtain ⟨hx, hoperand, hended₂, hshort⟩ := Lexer.startsComment_of_nextToken hc
  obtain ⟨e, -, hat₂, hstop⟩ := hat.nextToken
  generalize hs : n + (l₁.rest.takeWhile isBlank).length = s at hdrop hplace
  have hlt : s < e := by
    rw [← hdrop, hat₂.rest, List.length_drop, List.length_drop] at hshort
    omega
  refine ⟨ts, l₁.nextToken.2.run.1, by rw [tokenize, hreads.run_eq, Lexer.run_of_not_ended hended], ?_⟩
  -- Up to the comment both texts are the same.
  have hbeside : Lexer.Beside (l₁.rest.dropWhile isBlank) (0x20 :: bytes.drop e) (bytes.take s) (.ofBytes bytes)
      (.ofBytes (blankOut bytes l₁.nextToken.1.span)) := by
    refine ⟨?_, ?_, rfl, rfl⟩
    · rw [← hdrop, List.take_append_drop]
      rfl
    · rw [Lexer.ofBytes, blankOut, hplace, hstop]
      rfl
  have hblank : ∀ b ∈ l₁.rest.takeWhile isBlank, isBlank b := fun b hb => List.all_eq_true.1 List.all_takeWhile b hb
  obtain ⟨ts', l₁', hreads', hb, hkinds⟩ := hreads.beside hx hstart hdrop hbeside
    List.takeWhile_append_dropWhile.symm hblank
  -- Behind it the same is ahead.
  have halike : Lexer.Alike l₁.nextToken.2 l₁' := by
    refine ⟨?_, by rw [hb.afterOperand, hoperand], by rw [hb.ended, hended₂]⟩
    rw [hb.right, List.dropWhile_append_of_pos hblank, hat₂.rest]
    exact List.dropWhile_cons_of_pos (by decide)
  have hlater : ∀ u ∈ l₁.nextToken.2.run.1, u.kindBefore l₁.nextToken.1.span.start = u.kind := by
    intro u hu
    refine if_neg fun h => ?_
    have hle := hat₂.le_stop hu
    rw [h.2, hplace] at hle
    exact absurd hle (Nat.not_le.2 hlt)
  rw [tokenize, hreads'.run_eq, List.map_append, List.map_append, hkinds, halike.run, hplace, ← hplace,
    List.map_congr_left hlater]

/-- A blank in place of a comment changes no other token but a bar that stands right before the comment: that is read as an
operator, and with the blank as a mark. So without such a bar, and only then, nothing changes. -/
theorem comment_as_blank {bytes : List UInt8} {t : Token} (ht : t ∈ tokenize bytes) (hc : t.kind.isComment) :
    significant (blankOut bytes t.span) = ((tokenize bytes).map (·.kindBefore t.span.start)).filter (!·.isComment) ∧
    (significant (blankOut bytes t.span) = significant bytes ↔
      ∀ u ∈ tokenize bytes, u.kind = .operator "|" → u.span.stop ≠ t.span.start) := by
  obtain ⟨before, after, htokens, hkinds⟩ := kinds_blankOut ht hc
  have hfirst : significant (blankOut bytes t.span) =
      ((tokenize bytes).map (·.kindBefore t.span.start)).filter (!·.isComment) := by
    have hgone : (!(t.kindBefore t.span.start).isComment) = false := by rw [t.isComment_kindBefore, hc]; rfl
    rw [significant, hkinds, htokens, List.map_append, List.map_append, List.map_cons, List.filter_append, List.filter_append,
      List.filter_cons_of_neg (by rw [hgone]; simp)]
  refine ⟨hfirst, ?_⟩
  have hsame : (fun k => !k.isComment) ∘ (·.kindBefore t.span.start) = (fun k => !k.isComment) ∘ Token.kind := by
    funext u
    rw [Function.comp_apply, Function.comp_apply, u.isComment_kindBefore]
  rw [hfirst, significant, List.filter_map, List.filter_map, hsame, List.map_inj_left]
  constructor
  · intro h u hu hkind hstop
    have hu' : u ∈ (tokenize bytes).filter ((fun k => !k.isComment) ∘ Token.kind) := by
      rw [List.mem_filter]
      exact ⟨hu, by rw [Function.comp_apply, hkind]; rfl⟩
    have heq := h u hu'
    rw [Token.kindBefore, if_pos ⟨hkind, hstop⟩, hkind] at heq
    cases heq
  · intro h u hu
    exact if_neg fun hbar => h u (List.mem_filter.1 hu).1 hbar.1 hbar.2

/-- Between a keyword and a number a comment is as good as a blank, but not behind a bar. -/
theorem comment_as_blank_behind_bar :
    (∃ t ∈ tokenize (utf8 "a:/* c */-1"), t.kind.isComment ∧
      significant (blankOut (utf8 "a:/* c */-1") t.span) = significant (utf8 "a:/* c */-1")) ∧
    ∃ t ∈ tokenize (utf8 "[:a |/* c */ a ]"), t.kind.isComment ∧
      significant (blankOut (utf8 "[:a |/* c */ a ]") t.span) ≠ significant (utf8 "[:a |/* c */ a ]") := by
  constructor
  · obtain ⟨t, ht, hc⟩ : ∃ t ∈ tokenize (utf8 "a:/* c */-1"), t.kind.isComment := by decide +kernel
    have hnone : ∀ u ∈ tokenize (utf8 "a:/* c */-1"), u.kind ≠ .operator "|" := by decide +kernel
    exact ⟨t, ht, hc, (comment_as_blank ht hc).2.2 fun u hu hbar => absurd hbar (hnone u hu)⟩
  · obtain ⟨t, ht, hc, u, hu, hbar, hstop⟩ : ∃ t ∈ tokenize (utf8 "[:a |/* c */ a ]"), t.kind.isComment ∧
        ∃ u ∈ tokenize (utf8 "[:a |/* c */ a ]"), u.kind = .operator "|" ∧ u.span.stop = t.span.start := by decide +kernel
    exact ⟨t, ht, hc, fun hsame => (comment_as_blank ht hc).2.1 hsame u hu hbar hstop⟩

end BlockScope
