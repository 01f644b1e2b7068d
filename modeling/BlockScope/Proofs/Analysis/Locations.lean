import BlockScope.Proofs.Analysis.Blame
import BlockScope.Proofs.Program.Nesting
import BlockScope.Proofs.Token.Verbatim
/-!
# Errors point at the text they are about

From the bytes of a source to the place of an error: names keep the text of the token they were read from, a parser leaves nodes and
declarations at the spans of these tokens, and an error takes its place from one of them. So the source text at the place of an error is
what the error names (`errors_quote_source`). A class begins with its name, which the colon behind it may have been read together with.
-/
namespace BlockScope
open BlockScope.Parser Text

/-- The text of a source from the beginning of the span to its end. -/
def Span.Covers (span : Span) (source text : String) : Prop :=
  ∃ before after : String, source = before ++ text ++ after ∧ span.start.offset = before.utf8ByteSize ∧
    span.stop.offset = (before ++ text).utf8ByteSize

/-- The text at the place of an error is what the error is about. -/
def AnalysisFault.Quotes (p : Program) (source : String) (span : Span) : AnalysisFault → Prop
  | .undeclaredName name | .invalidAssignment name _ => span.Covers source name
  | .unresolvedSuperclass _ superName => span.Covers source superName
  | .duplicateDeclaration name => span.Covers source name ∨ span.Covers source (":" ++ name) ∧
    ∃ id params temps body, p.arena.expr? id = some (.block params temps body) ∧ ⟨name, span⟩ ∈ params
  | .duplicateClass name | .cyclicInheritance name =>
    ∃ c ∈ p.classes, c.name = name ∧ c.span = span ∧ ∃ rest, span.Covers source (name ++ rest)

/-! ## The text of tokens -/

section
variable {source : String} {t u : Token} {span : Span}

theorem Token.keepsIn_of_mem (ht : t ∈ tokenize (utf8 source)) : t.KeepsIn source.toList := by
  obtain ⟨ts, l, hreads, -, rfl⟩ := Lexer.Reads.of_mem_run ht
  have hbegin : (Lexer.ofBytes (utf8 source)).Within source.toList := ⟨[], source.toList, rfl, utf8_eq_encode source, rfl⟩
  exact (hreads.within hbegin).nextToken.1

theorem Span.covers_of_chars {before text after : List Char} (hsource : source.toList = before ++ text ++ after)
    (hstart : span.start.offset = (encode before).length) (hstop : span.stop.offset = (encode (before ++ text)).length) :
    span.Covers source (String.ofList text) := by
  refine ⟨String.ofList before, String.ofList after, ?_, ?_, ?_⟩
  · rw [← String.ofList_append, ← String.ofList_append, ← hsource, String.ofList_toList]
  · rw [hstart, ← length_encode, String.toList_ofList]
  · rw [hstop, ← length_encode, ← String.ofList_append, String.toList_ofList]

theorem Token.covers_spelling (ht : t ∈ tokenize (utf8 source)) (hkind : t.kind.isVerbatim) : t.span.Covers source t.kind.spelling := by
  obtain ⟨before, text, after, hsource, hstart, hstop, hkept⟩ := Token.keepsIn_of_mem ht
  rw [(hkept hkind).2]
  exact Span.covers_of_chars hsource hstart hstop

/-- Of two beginnings of a text, the one that takes no more bytes is a beginning of the other. -/
theorem prefix_of_length_encode {xs ys zs : List Char} (hx : xs <+: zs) (hy : ys <+: zs)
    (hle : (encode xs).length ≤ (encode ys).length) : xs <+: ys := by
  rcases List.prefix_or_prefix_of_prefix hx hy with h | ⟨rest, rfl⟩
  · exact h
  · cases rest with
    | nil => simp
    | cons c rest =>
      have hpos : 0 < (String.utf8EncodeChar c).length := List.length_pos_iff.2 String.utf8EncodeChar_ne_nil
      rw [encode_append, encode_cons, List.length_append, List.length_append] at hle
      omega

/-- A stretch from the beginning of one token to the end of another begins with the text of the first. -/
theorem Span.covers_append (ht : t ∈ tokenize (utf8 source)) (hu : u ∈ tokenize (utf8 source)) (hkind : t.kind.isVerbatim)
    (hstart : t.span.start = span.start) (hstop : u.span.stop = span.stop) (hle : t.span.stop.offset ≤ span.stop.offset) :
    ∃ rest, span.Covers source (t.kind.spelling ++ rest) := by
  obtain ⟨before, text, after, hsource, htstart, htstop, hkept⟩ := Token.keepsIn_of_mem ht
  obtain ⟨before', text', after', hsource', -, hustop, -⟩ := Token.keepsIn_of_mem hu
  rw [← hstop, htstop, hustop] at hle
  obtain ⟨rest, hrest⟩ := prefix_of_length_encode ⟨after, hsource.symm⟩ ⟨after', hsource'.symm⟩ hle
  refine ⟨String.ofList rest, ?_⟩
  rw [List.append_assoc] at hrest
  rw [← hrest] at hsource'
  rw [(hkept hkind).2, ← String.ofList_append]
  exact covers_of_chars hsource' (by rw [← hstart, htstart]) (by rw [← hstop, hustop, hrest])

theorem append_withoutColons (part : String) : ∃ colons, part = withoutColons part ++ colons := by
  refine ⟨String.ofList (part.toList.reverse.takeWhile (· = ':')).reverse, ?_⟩
  rw [withoutColons, ← String.ofList_append, ← List.reverse_append, List.takeWhile_append_dropWhile, List.reverse_reverse,
    String.ofList_toList]

/-- A name is spelled as the token that it was read from. -/
theorem spelling_of_atom {kind : TokenKind} {name : String} (h : atom? kind = some (.ident name)) :
    kind.isVerbatim ∧ kind.spelling = name := by
  cases kind with
  | identifier => cases h; exact ⟨rfl, rfl⟩
  | reserved word =>
    cases word with
    | self => cases h; exact ⟨rfl, rfl⟩
    | super => cases h; exact ⟨rfl, rfl⟩
    | nil | true | false => cases h
  | integer | float | string | symbol | character | keyword | argument | operator | mark | lineComment | blockComment | endOfInput
  | error =>
    cases h

end

/-! ## The text of parts of a program -/

namespace Program.Laid
variable {source : String} {p : Program}

theorem covers_ident {id : NodeId} {name : String} (h : p.Laid (tokenize (utf8 source)))
    (hident : p.arena.expr? id = some (.ident name)) : (p.arena.span id).Covers source name := by
  obtain ⟨⟨_, span⟩, hget, rfl⟩ := Option.map_eq_some_iff.1 hident
  obtain ⟨t, ht, hspan, hatom⟩ := (h.arena id _ hget).keeps
  obtain ⟨hverbatim, hspelling⟩ := spelling_of_atom hatom
  have hnode : p.arena.span id = t.span := by rw [Arena.span, hget, hspan]; rfl
  rw [hnode, ← hspelling]
  exact Token.covers_spelling ht hverbatim

end Program.Laid

theorem Declaration.Stands.covers {source : String} {d : Declaration} {kind : String → TokenKind} {n m : Nat}
    (h : d.Stands (tokenize (utf8 source)) kind n m) (hkind : (kind d.name).isVerbatim) :
    d.span.Covers source (kind d.name).spelling := by
  obtain ⟨t, ht, htkind, hspan⟩ := h.read
  rw [← hspan, ← htkind]
  exact Token.covers_spelling ht.mem (htkind ▸ hkind)

theorem ClassDefinition.Laid.covers {source : String} {a : Arena} {c : ClassDefinition} (h : c.Laid (tokenize (utf8 source)) a) :
    ∃ rest, c.span.Covers source (c.name ++ rest) := by
  obtain ⟨t, ht, hstart, hle, hkind⟩ := h.head
  obtain ⟨u, hu, hstop⟩ := h.among.stop
  have hcovers : t.kind.isVerbatim → ∃ rest, c.span.Covers source (t.kind.spelling ++ rest) := fun hverbatim =>
    Span.covers_append ht hu hverbatim hstart hstop hle
  rcases hkind with hkind | ⟨part, hkind, hname⟩
  · rw [hkind] at hcovers
    exact hcovers rfl
  · obtain ⟨colons, hpart⟩ := append_withoutColons part
    rw [hkind] at hcovers
    obtain ⟨rest, hrest⟩ := hcovers rfl
    rw [TokenKind.spelling, hpart, ← hname, String.append_assoc] at hrest
    exact ⟨colons ++ rest, hrest⟩

/-- An error of the analysis of a source text has a place, and the text there is what the error is about: the name that is not declared
or cannot be assigned to, the superclass that is not there, the name declared again, with the colon if it is a parameter of a block, or
a class that goes by the name, from that name on. -/
theorem errors_quote_source {source : String} {p : Program} {e : AnalysisError} (hp : Program.ofBytes (utf8 source) = .ok p)
    (he : p.analyze = .error e) : ∃ span, e.span = some span ∧ e.fault.Quotes p source span := by
  have hlaid := Program.laid_ofBytes hp
  cases Program.blames_of_analyze he with
  | undeclared h | assignment h => exact ⟨_, rfl, hlaid.covers_ident h⟩
  | superclass hc hname =>
    obtain ⟨t, ht, hspan, hkind⟩ := (hlaid.classes _ hc).super _ hname
    have hcovers := Token.covers_spelling ht (by rw [hkind]; rfl)
    rw [hkind, hspan] at hcovers
    exact ⟨_, rfl, hcovers⟩
  | ofClass hc hd => exact ⟨_, rfl, .inl (((hlaid.classes _ hc).vars _ hd).covers rfl)⟩
  | ofMethod hc hm hd => exact ⟨_, rfl, .inl ((((hlaid.classes _ hc).methods _ hm).declares _ hd).covers rfl)⟩
  | ofBlock h hd =>
    obtain ⟨⟨_, span⟩, hget, rfl⟩ := Option.map_eq_some_iff.1 h
    obtain ⟨hparams, htemps⟩ := (hlaid.arena _ _ hget).keeps
    rcases List.mem_append.1 hd with hd | hd
    · exact ⟨_, rfl, .inr ⟨(hparams _ hd).covers rfl, _, _, _, _, h, hd⟩⟩
    · exact ⟨_, rfl, .inl ((htemps _ hd).covers rfl)⟩
  | sameClass hc | cycle hc => exact ⟨_, rfl, _, hc, rfl, rfl, (hlaid.classes _ hc).covers⟩

/-- The analysis refuses the program for this fault. -/
def Program.refusedFor (fault : AnalysisFault) (p : Program) : Bool :=
  match p.analyze with
  | .error e => e.fault = fault
  | .ok _ => false

theorem Program.error_of_refusedFor {fault : AnalysisFault} (p : Program) (h : p.refusedFor fault = true) :
    ∃ e, p.analyze = .error e ∧ e.fault = fault := by
  unfold refusedFor at h
  split at h
  · next e he => exact ⟨e, he, of_decide_eq_true h⟩
  · cases h

/-- A parameter of a block declared twice. -/
theorem errors_quote_source_parameter : ∃ (p : Program) (e : AnalysisError) (span : Span),
    Program.ofBytes (utf8 "A : nil [ m [ ^ [:x :x | x] ] ]") = .ok p ∧ p.analyze = .error e ∧ e.fault = .duplicateDeclaration "x" ∧
    e.span = some span ∧ (span.Covers "A : nil [ m [ ^ [:x :x | x] ] ]" "x" ∨ span.Covers "A : nil [ m [ ^ [:x :x | x] ] ]" ":x") := by
  obtain ⟨p, hp, hrefused⟩ := Program.exists_ofBytes "A : nil [ m [ ^ [:x :x | x] ] ]".toUTF8 (·.refusedFor (.duplicateDeclaration "x"))
    (by decide +kernel)
  obtain ⟨e, he, hfault⟩ := p.error_of_refusedFor hrefused
  obtain ⟨span, hspan, hquotes⟩ := errors_quote_source hp he
  rw [hfault] at hquotes
  exact ⟨p, e, span, hp, he, hfault, hspan, hquotes.imp_right And.left⟩

end BlockScope
