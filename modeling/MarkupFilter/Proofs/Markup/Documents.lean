import MarkupFilter.Proofs.Markup.Forests
import MarkupFilter.Proofs.Markup.Nesting
import MarkupFilter.Proofs.Markup.OpenStack
import MarkupFilter.Proofs.Markup.Writing

/-!
# Documents

A document is a row of trees: texts, comments, and elements that are closed in their place. Written
in the usual spelling it is read again as it is. Only a comment may be read as something else: one
that starts like the closer of a conditional comment is that closer.

## Main definitions

* `Markup.write` — the text of a document.
* `Markup.WellFormed` — what a document is made of.
* `Markup.StartsWithCloser` — the comment is read as the closer of a conditional comment.
* `Outline.Grown` — an outline has got some more trees.

## Main results

* `Markup.pieces_write` — a document is read as the pieces that were written.
* `Markup.parse_write` — parsing undoes writing.
-/

set_option autoImplicit false

namespace MarkupFilter

open OpenElements (Represents)
open Reader

/-! ## Writing documents -/

namespace Markup

mutual

/-- The pieces of a tree in the order in which they are written: an element has its tags around
what is below it. -/
def pieces : Markup → List Piece
  | .node (.text raw) _ => [.text raw]
  | .node (.comment body) _ => [.comment body]
  | .node (.element e) cs =>
    if e.selfClosed then [.startTag e]
    else .startTag e :: (piecesOfAll cs ++ [.endTag e.name ("</" ++ e.name ++ ">")])
  | .node _ _ => []

/-- The pieces of a row of trees. -/
def piecesOfAll : List Markup → List Piece
  | [] => []
  | t :: ts => pieces t ++ piecesOfAll ts

end

/-- The text of a row of trees. -/
def write (ts : List Markup) : String :=
  String.ofList ((piecesOfAll ts).flatMap Piece.write)

end Markup

/-! ## Well-formed documents -/

/-- The element has a name that fits, and attributes without values or with quoted ones, of which no
two have the same name. -/
structure Element.Quoted (e : Element) : Prop extends e.WellRead where
  quoted : ∀ a ∈ e.attributes.toList, ∀ value, a.value = some value → a.quote ≠ none

theorem Element.Quoted.wellWritten {e : Element} (he : e.Quoted) : e.WellWritten := by
  refine ⟨he.toWellRead, fun _ a hlast => ?_⟩
  cases hv : a.value with
  | none => exact .inl rfl
  | some value => exact .inr (he.quoted a (List.mem_of_getLast? hlast) value hv)

/-- The content as it is read again: an element that does not close itself is closed. -/
def Content.completed : Content → Content
  | .element e => .element (if e.selfClosed then e else { e with ending := .closed })
  | c => c

namespace Markup

/-- The tree is a text. -/
def isText : Markup → Bool
  | .node (.text _) _ => true
  | _ => false

mutual

/-- The tree is made of texts that are not empty, comments that do not end early and do not start
with a bracket, and elements, of which those that close themselves are empty. -/
def WellFormed : Markup → Prop
  | .node (.text raw) cs => raw.toList ≠ [] ∧ '<' ∉ raw.toList ∧ cs = []
  | .node (.comment body) cs =>
    ¬ ['-', '-', '>'] <:+: body.toList ∧ body.toList.head? ≠ some '[' ∧ cs = []
  | .node (.element e) cs => e.Quoted ∧ (e.selfClosed = true → cs = []) ∧ WellFormedAll cs
  | .node _ _ => False

/-- The trees are well formed, and no text follows another one. -/
def WellFormedAll : List Markup → Prop
  | [] => True
  | t :: ts => WellFormed t ∧ (isText t = true → ∀ u ∈ ts.head?, isText u = false) ∧
      WellFormedAll ts

end

/-- The body of what would be a comment, but starts with the closer of a conditional one, whose
last characters may be those of the comment. -/
def StartsWithCloser (body : List Char) : Prop :=
  ∃ blanks rest, (∀ c ∈ blanks, isBlank c = true) ∧
    body = ['<', '!', '[', 'e', 'n', 'd', 'i', 'f'] ++ blanks ++ ']' :: rest ∧
      (rest = [] ∨ ∃ cs, rest = '>' :: cs)

/-- No comment of a document is read as the closer of a conditional one. -/
def NoCloser (ts : List Markup) : Prop :=
  ∀ body, Content.comment body ∈ Tree.preorderAll ts → ¬ StartsWithCloser body.toList

theorem noCloser_cons {t : Markup} {ts : List Markup} :
    NoCloser (t :: ts) ↔ NoCloser [t] ∧ NoCloser ts := by
  simp [NoCloser, or_imp, forall_and]

end Markup

/-! ## Reading comments again -/

namespace Reader

/-- What starts a text and has no dashes in it starts the part before the first dash. -/
theorem append_dash_eq {body tail start cs : List Char} (hstart : '-' ∉ start)
    (h : body ++ '-' :: tail = start ++ cs) :
    ∃ rest, body = start ++ rest ∧ rest ++ '-' :: tail = cs := by
  rcases List.append_eq_append_iff.1 h with ⟨more, rfl, hcs⟩ | ⟨rest, hbody, hcs⟩
  · cases more with
    | nil => exact ⟨[], by simp, by simpa using hcs⟩
    | cons c more =>
      obtain ⟨rfl, -⟩ := List.cons.inj hcs
      exact absurd (by simp) hstart
  · exact ⟨rest, hbody, hcs.symm⟩

theorem head?_eq_of_append_dash {body tail cs : List Char} {c : Char} (hc : c ≠ '-')
    (h : body ++ '-' :: tail = c :: cs) : body.head? = some c := by
  have hstart : '-' ∉ [c] := by simpa using hc.symm
  obtain ⟨rest, rfl, -⟩ := append_dash_eq hstart h
  rfl

theorem write_comment_append (body : String) (rest : List Char) :
    (Piece.comment body).write ++ rest =
      ['<', '!', '-', '-'] ++ (body.toList ++ '-' :: '-' :: '>' :: rest) := by
  simp [Piece.write]

/-- A comment that does not start with a bracket opens no condition. -/
theorem conditionalStart?_comment_eq_none {body : String} (hbracket : body.toList.head? ≠ some '[')
    (rest : List Char) : conditionalStart? ((Piece.comment body).write ++ rest) = none := by
  rw [write_comment_append, conditionalStart?, Option.map_eq_none_iff]
  cases hnoneed : openedCondition? (['<', '!', '-', '-'] ++
      (body.toList ++ '-' :: '-' :: '>' :: rest)) with
  | none => rfl
  | some r =>
    obtain ⟨condition, rest'⟩ := r
    obtain ⟨-, start, hstart, close, -, hsplit⟩ := eq_append_of_openedCondition? hnoneed
    simp only [List.mem_cons, List.not_mem_nil, or_false] at hstart
    rcases hstart with rfl | rfl
    · simp only [List.cons_append, List.nil_append, List.cons.injEq, true_and] at hsplit
      exact absurd (head?_eq_of_append_dash (by decide) hsplit) hbracket
    · simp at hsplit

/-- A body starts with a closer if the closer is read from it, with the end of the comment or without
it. -/
theorem startsWithCloser_of_append {body blanks tail rest rest' : List Char}
    (hend : ¬ ['-', '-', '>'] <:+: body) (hblanks : ∀ c ∈ blanks, isBlank c = true)
    (htail : tail = ['-', '-', '>'] ∨ tail = ['>'])
    (h : body ++ '-' :: '-' :: '>' :: rest =
      ['<', '!', '[', 'e', 'n', 'd', 'i', 'f'] ++ blanks ++ [']'] ++ (tail ++ rest')) :
    Markup.StartsWithCloser body := by
  have hdash : '-' ∉ ['<', '!', '[', 'e', 'n', 'd', 'i', 'f'] ++ blanks ++ [']'] := by
    have hmem : '-' ∉ blanks := fun hmem => absurd (hblanks _ hmem) (by decide)
    simp [hmem]
  obtain ⟨more, hbody, hmore⟩ := append_dash_eq hdash h
  refine ⟨blanks, more, hblanks, by simpa using hbody, ?_⟩
  rcases htail with rfl | rfl
  · left
    refine eq_nil_of_append_end (fun hpart => hend (hpart.trans ?_)) hmore
    rw [hbody]
    exact (List.suffix_append _ _).isInfix
  · right
    exact List.head?_eq_some_iff.1 (head?_eq_of_append_dash (by decide) hmore)

/-- A comment that is read as the closer of a conditional one starts with a bracket or with that
closer. -/
theorem conditionalEnd?_comment_eq_none {body : String}
    (hend : ¬ ['-', '-', '>'] <:+: body.toList) (hbracket : body.toList.head? ≠ some '[')
    (hcloser : ¬ Markup.StartsWithCloser body.toList) (rest : List Char) :
    conditionalEnd? ((Piece.comment body).write ++ rest) = none := by
  rw [write_comment_append, conditionalEnd?, Option.map_eq_none_iff]
  cases hafter : afterConditionalEnd? (['<', '!', '-', '-'] ++
      (body.toList ++ '-' :: '-' :: '>' :: rest)) with
  | none => rfl
  | some rest' =>
    obtain ⟨start, hstart, blanks, hblanks, close, hclose, hsplit⟩ :=
      eq_append_of_afterConditionalEnd? hafter
    simp only [List.mem_cons, List.not_mem_nil, or_false] at hstart hclose
    rcases hstart with rfl | rfl | rfl
    · rcases hclose with rfl | rfl
      · exact absurd (startsWithCloser_of_append hend hblanks (.inl rfl) (by simpa using hsplit))
          hcloser
      · exact absurd (startsWithCloser_of_append hend hblanks (.inr rfl) (by simpa using hsplit))
          hcloser
    · simp only [List.cons_append, List.nil_append, List.cons.injEq, true_and] at hsplit
      exact absurd (head?_eq_of_append_dash (by decide) hsplit) hbracket
    · simp at hsplit

/-- **A comment is read again as it is** unless it starts with a bracket or the closer of a
conditional comment. -/
theorem piece?_comment_of_not_closer {body : String} (hend : ¬ ['-', '-', '>'] <:+: body.toList)
    (hbracket : body.toList.head? ≠ some '[') (hcloser : ¬ Markup.StartsWithCloser body.toList)
    (rest : List Char) :
    piece? ((Piece.comment body).write ++ rest) = some (.comment body, rest) := by
  have hcomment : comment? ((Piece.comment body).write ++ rest) = some (.comment body, rest) := by
    simp only [write_comment_append, comment?, Option.bind_eq_bind, after?_append, Option.bind_some,
      commentBody?_append hend, String.ofList_toList]
    rfl
  rw [piece?, conditionalStart?_comment_eq_none hbracket,
    conditionalEnd?_comment_eq_none hend hbracket hcloser, hcomment]
  rfl

end Reader

/-! ## Reading documents again -/

namespace Markup

/-- A tree that is no text is written with an angle bracket first. -/
theorem WellFormed.exists_write_eq_cons {t : Markup} (h : t.WellFormed) (ht : isText t = false) :
    ∃ cs, t.pieces.flatMap Piece.write = '<' :: cs := by
  obtain ⟨c, cs⟩ := t
  cases c with
  | fragment => exact h.elim
  | text raw => cases ht
  | stray raw closing => exact h.elim
  | comment body => exact ⟨_, rfl⟩
  | element e =>
    rw [pieces]
    split
    · exact ⟨_, rfl⟩
    · exact ⟨_, rfl⟩

/-- The text does not go on with characters that would belong to a text. -/
def EndsText (rest : List Char) : Prop :=
  rest = [] ∨ ∃ cs, rest = '<' :: cs

theorem WellFormedAll.endsText {ts : List Markup} (h : WellFormedAll ts)
    (hhead : ∀ u ∈ ts.head?, isText u = false) {rest : List Char} (hrest : EndsText rest) :
    EndsText ((piecesOfAll ts).flatMap Piece.write ++ rest) := by
  cases ts with
  | nil => exact hrest
  | cons u us =>
    obtain ⟨cs, hcs⟩ := h.1.exists_write_eq_cons (hhead u rfl)
    right
    rw [piecesOfAll, List.flatMap_append, hcs]
    exact ⟨_, rfl⟩

mutual

/-- A tree is read again as its pieces, if a text ends where it ends. -/
theorem pieces_write : ∀ {t : Markup}, t.WellFormed → NoCloser [t] → ∀ {rest : List Char},
    (isText t = true → EndsText rest) →
      Reader.pieces (t.pieces.flatMap Piece.write ++ rest) = t.pieces ++ Reader.pieces rest
  | .node (.text raw) cs, h, _, rest, hrest => by
    obtain ⟨hne, hangle, -⟩ := h
    have hstops : rest.takeWhile (· != '<') = [] ∧ rest.dropWhile (· != '<') = rest := by
      rcases hrest rfl with rfl | ⟨cs, rfl⟩
      · exact ⟨rfl, rfl⟩
      · exact dropWhile_of_stops (stops_cons (by simp) cs)
    have hread := piece?_text hne hangle rest
    rw [hstops.1, hstops.2, List.append_nil, String.ofList_toList] at hread
    rw [pieces, List.flatMap_singleton, Piece.write, pieces_of_piece? hread]
    rfl
  | .node (.comment body) cs, h, hcloser, rest, _ => by
    obtain ⟨hend, hbracket, -⟩ := h
    have hread := piece?_comment_of_not_closer hend hbracket (hcloser body (by simp)) rest
    rw [pieces, List.flatMap_singleton, pieces_of_piece? hread]
    rfl
  | .node (.element e) cs, h, hcloser, rest, _ => by
    obtain ⟨he, hempty, hcs⟩ := h
    rw [pieces]
    split
    · rw [List.flatMap_singleton, Piece.write,
        pieces_of_piece? (piece?_startTag he.wellWritten rest).1]
      rfl
    · have hend : Piece.WellWritten (.endTag e.name ("</" ++ e.name ++ ">")) :=
        ⟨he.name, by simp⟩
      have hinside : NoCloser cs := fun body hbody => hcloser body (by simp [hbody])
      have hends : EndsText ((Piece.endTag e.name ("</" ++ e.name ++ ">")).write ++ rest) :=
        .inr ⟨_, by rw [Piece.write, hend.2]; rfl⟩
      rw [List.flatMap_cons, List.flatMap_append, List.flatMap_singleton, List.append_assoc,
        List.append_assoc, Piece.write, pieces_of_piece? (piece?_startTag he.wellWritten _).1,
        piecesOfAll_write hcs hinside hends, pieces_of_piece? (piece?_endTag hend rest)]
      simp

/-- **A document is read as the pieces that were written.** -/
theorem piecesOfAll_write : ∀ {ts : List Markup}, WellFormedAll ts → NoCloser ts →
    ∀ {rest : List Char}, EndsText rest →
      Reader.pieces ((piecesOfAll ts).flatMap Piece.write ++ rest) =
        piecesOfAll ts ++ Reader.pieces rest
  | [], _, _, _, _ => rfl
  | t :: ts, h, hcloser, rest, hrest => by
    obtain ⟨ht, hapart, hts⟩ := h
    obtain ⟨hfirst, hothers⟩ := noCloser_cons.1 hcloser
    rw [piecesOfAll, List.flatMap_append, List.append_assoc,
      pieces_write ht hfirst fun htext => hts.endsText (hapart htext) hrest,
      piecesOfAll_write hts hothers hrest, List.append_assoc]

end

end Markup

/-! ## Building documents again -/

namespace Outline

/-- The outline `o'` has the nodes of `o` and those of some more trees behind them, and the same
elements are open. -/
structure Grown (o o' : Outline) (es : List (OpenEntry Nat)) (ts : List Markup) : Prop where
  nodes : ∃ xs, o'.nodes.toList = o.nodes.toList ++ xs ∧ InRange xs ∧ trees xs = ts
  opened : o'.openElements.Represents es

namespace Grown

variable {o o' o'' : Outline} {es : List (OpenEntry Nat)} {ts us : List Markup}

theorem refl (h : o.openElements.Represents es) : Grown o o es [] :=
  ⟨⟨[], by simp, trivial, trees_nil⟩, h⟩

theorem trans (h : Grown o o' es ts) (h' : Grown o' o'' es us) : Grown o o'' es (ts ++ us) := by
  obtain ⟨xs, hxs, hrange, rfl⟩ := h.nodes
  obtain ⟨ys, hys, hrange', rfl⟩ := h'.nodes
  refine ⟨⟨xs ++ ys, ?_, hrange.append hrange', trees_append ys hrange⟩, h'.opened⟩
  rw [hys, hxs, List.append_assoc]

/-- A node without anything in it. -/
theorem leaf (h : o.openElements.Represents es) (c : Content) :
    Grown o (o.append c) es [.leaf c] := by
  refine ⟨⟨[⟨c, 0⟩], toList_append o c, ⟨Nat.zero_le _, trivial⟩, ?_⟩, h⟩
  rw [trees_cons]
  simp [Tree.leaf]

/-- An element with its tags around what is in it: the end tag closes the innermost element. -/
theorem element {e : Element} (raw : String)
    (h : Grown (o.add (.startTag e)) o'
      (⟨o.openElements.nextNumber, AsciiCase.lower e.name, false, o.nodes.size⟩ :: es) ts) :
    Grown o (o'.add (.endTag e.name raw)) es
      [.node (.element { e with ending := .closed }) ts] := by
  obtain ⟨xs, hxs, hrange, rfl⟩ := h.nodes
  have hkey : AsciiCase.lower e.name = AsciiCase.lower e.name := rfl
  obtain ⟨c, hc, hcloses⟩ := h.opened.close?_head hkey
  have hnodes : o'.nodes.toList = o.nodes.toList ++ ⟨.element e, 0⟩ :: xs := by
    rw [hxs, toList_startTag, List.append_assoc, List.singleton_append]
  have hlength : o.nodes.size = o.nodes.toList.length := Array.length_toList.symm
  have hclose : (o'.close c).nodes.toList =
      o.nodes.toList ++ ⟨.element { e with ending := .closed }, xs.length⟩ :: xs := by
    rw [close, hcloses.skipped, hcloses.item, hcloses.overdue]
    dsimp only
    rw [hlength, List.filter_nil, List.map_nil, List.foldl_nil]
    exact toList_finish (o := { o' with openElements := c.remaining }) hnodes .closed
  rw [add_endTag_of_some raw hc]
  refine ⟨⟨_, hclose, ⟨Nat.le_refl _, hrange⟩, ?_⟩, ?_⟩
  · rw [trees_cons]
    simp
  · rw [openElements_close]
    exact hcloses.remaining

end Grown

end Outline

namespace Markup

open Outline (Grown)

mutual

/-- The pieces of a tree make that tree. -/
theorem grown_pieces : ∀ {t : Markup}, t.WellFormed → ∀ {o : Outline} {es : List (OpenEntry Nat)},
    o.openElements.Represents es →
      Grown o (t.pieces.foldl Outline.add o) es [Tree.map Content.completed t]
  | .node (.text raw) cs, h, o, es, hes => by
    obtain ⟨-, -, rfl⟩ := h
    exact .leaf hes (.text raw)
  | .node (.comment body) cs, h, o, es, hes => by
    obtain ⟨-, -, rfl⟩ := h
    exact .leaf hes (.comment body)
  | .node (.element e) cs, h, o, es, hes => by
    obtain ⟨he, hempty, hcs⟩ := h
    rw [pieces, Tree.map, Content.completed]
    by_cases hself : e.selfClosed = true
    · have hadd : o.add (.startTag e) = o.append (.element e) := by
        rw [Outline.add, if_pos hself]
        rfl
      rw [hempty hself, if_pos hself, if_pos hself, List.foldl_cons, List.foldl_nil, hadd]
      exact .leaf hes (.element e)
    · have hstart := Outline.openElements_startTag o e
      have hnoneed := hes.push e.name o.nodes.size
      rw [if_neg hself] at hstart
      rw [← hstart] at hnoneed
      rw [if_neg hself, if_neg hself, List.foldl_cons, List.foldl_append]
      exact (grown_piecesOfAll hcs hnoneed).element _

/-- The pieces of a row of trees make these trees. -/
theorem grown_piecesOfAll : ∀ {ts : List Markup}, WellFormedAll ts → ∀ {o : Outline}
    {es : List (OpenEntry Nat)}, o.openElements.Represents es →
      Grown o ((piecesOfAll ts).foldl Outline.add o) es (Tree.mapAll Content.completed ts)
  | [], _, o, es, hes => .refl hes
  | t :: ts, h, o, es, hes => by
    have ht := grown_pieces h.1 hes
    rw [piecesOfAll, List.foldl_append, Tree.mapAll]
    exact ht.trans (grown_piecesOfAll h.2.2 ht.opened)

end

/-- **Parsing undoes writing**: the tree of the text of a document is that document, in which every
element that does not close itself is closed.

*Proof sketch.* The text is read as the pieces of the document (`piecesOfAll_write`), by induction on
the trees with any text behind them. The pieces make the trees again (`grown_piecesOfAll`), by
induction on the trees with any elements open: a start tag opens an element, what is in the element
leaves it open, and so its end tag closes it. -/
theorem parse_write {ts : List Markup} (h : WellFormedAll ts) (hcloser : NoCloser ts) :
    Markup.parse (Markup.write ts) = .node .fragment (Tree.mapAll Content.completed ts) := by
  have hread : Piece.ofText (Markup.write ts) = piecesOfAll ts := by
    have hends : EndsText [] := .inl rfl
    have hpieces := piecesOfAll_write h hcloser hends
    rw [List.append_nil, Reader.pieces_nil, List.append_nil] at hpieces
    rw [Piece.ofText_eq_pieces, write, String.toList_ofList, hpieces]
  obtain ⟨xs, hxs, -, htrees⟩ := (grown_piecesOfAll h (o := {}) .empty).nodes
  rw [Markup.parse, Piece.ofDocument_eq_ofText, hread, Outline.markup, Outline.forest_eq_trees,
    Outline.ofPieces, hxs, ← htrees]
  rfl

/-- An attribute without a value. -/
def minimized (name : String) : Attribute :=
  { Attribute.ofValue name "" with value := none, quote := none }

/-- Two paragraphs in one another, with quoted and minimized attributes, a text with an angle bracket
that closes nothing, an element that closes itself, and a comment with dashes and tags in it. -/
def nestedParagraphs : List Markup :=
  [.node (.element { name := "P", attributes := ⟨[.ofValue "class" "a<b", minimized "hidden"]⟩ })
    [.node (.element { name := "p" }) [.leaf (.text "x > y")],
      .leaf (.element { name := "br", selfClosed := true }),
      .leaf (.text "z")],
    .leaf (.comment "--<p>--")]

theorem wellFormedAll_nestedParagraphs : WellFormedAll nestedParagraphs := by
  have hbare : ∀ name : String, IsTagName name.toList →
      ({ name := name } : Element).Quoted ∧
        ({ name := name, selfClosed := true } : Element).Quoted := by
    intro name hname
    have hnone : ∀ {P : Attribute → Prop}, ∀ a ∈ ({} : Attributes).toList, P a :=
      fun _ ha => (List.not_mem_nil ha).elim
    exact ⟨⟨⟨hname, rfl, rfl, rfl, hnone, .nil⟩, hnone⟩,
      ⟨⟨hname, rfl, rfl, rfl, hnone, .nil⟩, hnone⟩⟩
  have hclass : (Attribute.ofValue "class" "a<b").WellRead :=
    ⟨⟨by decide, by decide, .inl rfl, by decide⟩, rfl⟩
  have hhidden : (minimized "hidden").WellRead :=
    ⟨⟨by decide, by decide, rfl⟩, rfl⟩
  have houter : ({ name := "P", attributes := ⟨[.ofValue "class" "a<b", minimized "hidden"]⟩ } :
      Element).Quoted :=
    ⟨⟨⟨'P', [], rfl, rfl, by decide⟩, rfl, rfl, rfl, by simpa using ⟨hclass, hhidden⟩, by decide⟩,
      by simp [Attribute.ofValue, minimized]⟩
  -- No tree with others below it closes itself, and no text stands before another tree.
  have hfalse : ∀ {P : Prop}, false = true → P := fun h => absurd h Bool.false_ne_true
  have hlast : ∀ u ∈ ([] : List Markup).head?, isText u = false := by simp
  have hinner : WellFormed (.node (.element { name := "p" }) [.leaf (.text "x > y")]) :=
    ⟨(hbare "p" ⟨'p', [], rfl, rfl, by decide⟩).1, hfalse, ⟨by decide, by decide, rfl⟩,
      fun _ => hlast, trivial⟩
  have hbreak : WellFormed (.leaf (.element { name := "br", selfClosed := true })) :=
    ⟨(hbare "br" ⟨'b', ['r'], rfl, rfl, by decide⟩).2, fun _ => rfl, trivial⟩
  have htext : WellFormed (.leaf (.text "z")) := ⟨by decide, by decide, rfl⟩
  have hcomment : WellFormed (.leaf (.comment "--<p>--")) := ⟨by decide, by decide, rfl⟩
  exact ⟨⟨houter, hfalse, hinner, hfalse, hbreak, hfalse, htext, fun _ => hlast, trivial⟩,
    hfalse, hcomment, hfalse, trivial⟩

/-- The paragraphs are written and read again. -/
theorem parse_write_nestedParagraphs :
    WellFormedAll nestedParagraphs ∧ NoCloser nestedParagraphs ∧
      Markup.write nestedParagraphs =
        "<P class=\"a<b\" hidden><p>x > y</p><br/>z</P><!----<p>---->" ∧
      Markup.parse (Markup.write nestedParagraphs) =
        .node .fragment (Tree.mapAll Content.completed nestedParagraphs) := by
  have hcloser : NoCloser nestedParagraphs := by
    intro body hbody
    have hbody : body = "--<p>--" := by
      simpa [nestedParagraphs, Tree.leaf] using hbody
    rintro ⟨blanks, rest, -, heq, -⟩
    rw [hbody] at heq
    exact absurd (congrArg List.head? heq) (by simp)
  exact ⟨wellFormedAll_nestedParagraphs, hcloser, by decide,
    parse_write wellFormedAll_nestedParagraphs hcloser⟩

/-- A comment that is the closer of a conditional one is read again as that. -/
theorem not_parse_write_closer :
    WellFormedAll [.leaf (.comment "<![endif]")] ∧
      (Markup.parse (Markup.write [.leaf (.comment "<![endif]")])).preorder =
        [.fragment, .stray "<!--<![endif]-->" .conditional] ∧
      Markup.parse (Markup.write [.leaf (.comment "<![endif]")]) ≠
        .node .fragment (Tree.mapAll Content.completed [.leaf (.comment "<![endif]")]) := by
  have hread : (Markup.parse (Markup.write [.leaf (.comment "<![endif]")])).preorder =
      [.fragment, .stray "<!--<![endif]-->" .conditional] := by
    decide +kernel
  refine ⟨⟨⟨by decide, by decide, rfl⟩, nofun, trivial⟩, hread, fun heq => ?_⟩
  rw [heq] at hread
  exact absurd hread (by decide)

end Markup

end MarkupFilter
