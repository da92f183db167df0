import MarkupFilter.Proofs.Filter.Rereading
import MarkupFilter.Proofs.Filter.Verdicts
import MarkupFilter.Proofs.Filter.WellNested
import MarkupFilter.Proofs.Markup.Documents

/-!
# Safe markup

A document is a row of trees: texts, comments, and elements that are closed in their place. Written
in the usual spelling it is read again as it is, and if all of its elements and attributes are
allowed, it is filtered to itself.

## Main definitions

* `Markup.Canonical` — the document is in the usual spelling.
* `Filter.AcceptsTree` — all elements and attributes of a document are allowed.

## Main results

* `Piece.Balanced.wellNestedFrom` — a document is well nested.
* `Filter.keeps_pieces` — what is written for the pieces of a document is what they are.
* `Filter.filtered_write` — safe markup is filtered to itself.
-/

set_option autoImplicit false

namespace MarkupFilter

open OpenElements (Represents)

/-! ## Documents in the usual spelling -/

/-- The attribute is minimized, or has a quoted value without angle brackets. -/
structure Attribute.Canonical (a : Attribute) : Prop extends a.WellRead where
  quoted : ∀ value, a.value = some value → a.quote ≠ none ∧ NoAngles value.toList

/-- The element has a name that fits, and attributes in the usual spelling of which no two have the
same name. -/
structure Element.Canonical (e : Element) : Prop extends e.WellRead where
  spelled : ∀ a ∈ e.attributes.toList, a.Canonical

namespace Markup

mutual

/-- The tree is one of texts and comments without angle brackets, and elements in the usual
spelling. No comment starts with a bracket, and nothing is below an element that closes itself. -/
def Canonical : Markup → Prop
  | .node (.text raw) _ => NoAngles raw.toList
  | .node (.comment body) _ => NoAngles body.toList ∧ body.toList.head? ≠ some '['
  | .node (.element e) cs => e.Canonical ∧ (e.selfClosed = true → cs = []) ∧ CanonicalAll cs
  | .node _ _ => False

/-- All trees of a row are in the usual spelling. -/
def CanonicalAll : List Markup → Prop
  | [] => True
  | t :: ts => Canonical t ∧ CanonicalAll ts

end

end Markup

/-! ## Reading documents again -/

theorem Element.Canonical.toQuoted {e : Element} (he : e.Canonical) : e.Quoted :=
  ⟨he.toWellRead, fun a ha value hvalue => ((he.spelled a ha).quoted value hvalue).1⟩

mutual

/-- The pieces of a document are read again. -/
theorem Markup.Canonical.rereads : ∀ {t : Markup}, t.Canonical → ∀ p ∈ t.pieces, p.Rereads
  | .node (.text raw) _, h => by
    simpa [Markup.pieces] using (show (Piece.text raw).Rereads from h)
  | .node (.comment body) _, h => by
    obtain ⟨hangles, hbracket⟩ := h
    refine List.forall_mem_singleton.2 ⟨hangles, ?_, ?_⟩
    · rintro ⟨condition, -, hbody⟩
      rw [hbody] at hbracket
      exact hbracket rfl
    · rintro ⟨blanks, -, hbody⟩
      rw [hbody] at hbracket
      exact hbracket rfl
  | .node (.element e) cs, h => by
    obtain ⟨he, -, hcs⟩ := h
    have hstart : (Piece.startTag e).Rereads := he.toQuoted.wellWritten
    rw [Markup.pieces]
    split
    · exact List.forall_mem_singleton.2 hstart
    · intro p hp
      rcases List.mem_cons.1 hp with rfl | hp
      · exact hstart
      · rcases List.mem_append.1 hp with hp | hp
        · exact Markup.CanonicalAll.rereads hcs p hp
        · rw [List.mem_singleton.1 hp]
          exact ⟨he.name, by simp⟩

theorem Markup.CanonicalAll.rereads :
    ∀ {ts : List Markup}, Markup.CanonicalAll ts → ∀ p ∈ Markup.piecesOfAll ts, p.Rereads
  | [], _ => by simp [Markup.piecesOfAll]
  | t :: ts, h => by
    intro p hp
    rcases List.mem_append.1 hp with hp | hp
    · exact h.1.rereads p hp
    · exact Markup.CanonicalAll.rereads h.2 p hp

end

/-! ## Documents are well nested -/

namespace Piece

/-- Every start tag that does not close itself has its end tag, and tags do not cross. -/
inductive Balanced : List Piece → Prop where
  | nil : Balanced []
  | other {p : Piece} {ps : List Piece} (hp : p.tag? = none) (h : Balanced ps) : Balanced (p :: ps)
  | selfClosed {e : Element} {ps : List Piece} (he : e.selfClosed = true) (h : Balanced ps) :
      Balanced (.startTag e :: ps)
  | element {e : Element} {name raw : String} {inner ps : List Piece} (he : e.selfClosed = false)
      (hname : AsciiCase.lower e.name = AsciiCase.lower name) (hinner : Balanced inner)
      (h : Balanced ps) : Balanced (.startTag e :: (inner ++ .endTag name raw :: ps))

namespace Balanced

theorem append {ps qs : List Piece} (hp : Balanced ps) (hq : Balanced qs) : Balanced (ps ++ qs) := by
  induction hp with
  | nil => exact hq
  | other hp _ ih => exact .other hp ih
  | selfClosed he _ ih => exact .selfClosed he ih
  | element he hname hinner _ _ ih =>
    rw [List.cons_append, List.append_assoc, List.cons_append]
    exact .element he hname hinner ih

theorem ofRun (run : String) : Balanced (ofRun run) := by
  unfold Piece.ofRun
  split
  · exact .nil
  · exact .other rfl .nil

/-- Joining texts keeps the tags in balance. -/
theorem joinFrom {ps : List Piece} (h : Balanced ps) (run : String) : Balanced (joinFrom run ps) := by
  induction h generalizing run with
  | nil => exact ofRun run
  | @other p ps hp _ ih =>
    by_cases htext : p.isText = true
    · cases p with
      | text raw => exact ih (run ++ raw)
      | _ => cases htext
    · rw [Bool.not_eq_true] at htext
      rw [joinFrom_cons htext]
      exact (ofRun run).append (.other hp (ih ""))
  | selfClosed he _ ih => exact (ofRun run).append (.selfClosed he (ih ""))
  | element he hname _ _ ih ihAfter =>
    rw [joinFrom_cons rfl, joinFrom_append_cons rfl]
    exact (ofRun run).append (.element he hname (ih "") (ihAfter ""))

/-- A start tag closes nothing. -/
theorem wellNestedFrom_startTag (o : Outline) (e : Element) (ps : List Piece) :
    o.wellNestedFrom (.startTag e :: ps) = (o.add (.startTag e)).wellNestedFrom ps :=
  Bool.true_and _

/-- **Tags in balance are well nested**: what follows them is read with the same elements open. The
induction is on the balance; an end tag closes the element on top, which is in time. -/
theorem wellNestedFrom {ps : List Piece} (h : Balanced ps) {o : Outline}
    {es : List (OpenEntry Nat)} (hes : o.openElements.Represents es) (rest : List Piece) :
    ∃ o' : Outline, o'.openElements.Represents es ∧
      o.wellNestedFrom (ps ++ rest) = o'.wellNestedFrom rest := by
  induction h generalizing o es rest with
  | nil => exact ⟨o, hes, rfl⟩
  | @other p ps hp _ ih =>
    have hopen : (o.add p).openElements = o.openElements := by
      cases p with
      | startTag e => cases hp
      | endTag name raw => cases hp
      | _ => rfl
    have htime : o.closesInTime p = true := by
      cases p with
      | endTag name raw => cases hp
      | _ => rfl
    obtain ⟨o', hes', hrest⟩ := ih (hopen ▸ hes) rest
    exact ⟨o', hes', by rw [List.cons_append, Outline.wellNestedFrom, htime, Bool.true_and, hrest]⟩
  | @selfClosed e ps he _ ih =>
    have hopen := Outline.openElements_startTag o e
    rw [if_pos he] at hopen
    obtain ⟨o', hes', hrest⟩ := ih (hopen ▸ hes) rest
    exact ⟨o', hes', by rw [List.cons_append, wellNestedFrom_startTag, hrest]⟩
  | @element e name raw inner ps he hname _ _ ih ih' =>
    have hopen := Outline.openElements_startTag o e
    rw [if_neg (by simp [he])] at hopen
    obtain ⟨o₁, hes₁, hinner⟩ := ih (hopen ▸ hes.push e.name o.nodes.size)
      (.endTag name raw :: (ps ++ rest))
    obtain ⟨c, hc, hcloses⟩ := hes₁.close?_head hname
    have hclosed : (o₁.add (.endTag name raw)).openElements.Represents es := by
      rw [Outline.add_endTag_of_some raw hc, Outline.openElements_close]
      exact hcloses.remaining
    obtain ⟨o', hes', hrest⟩ := ih' hclosed rest
    refine ⟨o', hes', ?_⟩
    have htime : o₁.closesInTime (.endTag name raw) = true := by
      rw [Outline.closesInTime, hc, Option.all_some, hcloses.overdue]
      rfl
    rw [List.cons_append, List.append_assoc, List.cons_append, wellNestedFrom_startTag, hinner,
      Outline.wellNestedFrom, htime, Bool.true_and, hrest]

end Balanced

end Piece

mutual

theorem Markup.Canonical.balanced : ∀ {t : Markup}, t.Canonical → Piece.Balanced t.pieces
  | .node (.text _) _, _ => .other rfl .nil
  | .node (.comment _) _, _ => .other rfl .nil
  | .node (.element e) cs, h => by
    rw [Markup.pieces]
    split
    · next hself => exact .selfClosed hself .nil
    · next hself =>
      exact .element (by simpa using hself) rfl (Markup.CanonicalAll.balanced h.2.2) .nil

theorem Markup.CanonicalAll.balanced :
    ∀ {ts : List Markup}, Markup.CanonicalAll ts → Piece.Balanced (Markup.piecesOfAll ts)
  | [], _ => .nil
  | _ :: _, h => h.1.balanced.append (Markup.CanonicalAll.balanced h.2)

end

/-- The text of a document is well nested. -/
theorem Markup.CanonicalAll.wellNested {ts : List Markup} (h : Markup.CanonicalAll ts) :
    Outline.wellNestedFrom {} (Piece.joinFrom "" (Markup.piecesOfAll ts)) = true := by
  obtain ⟨o, hes, hnested⟩ := (h.balanced.joinFrom "").wellNestedFrom (o := {}) .empty []
  rw [List.append_nil] at hnested
  rw [hnested, Outline.wellNestedFrom, hes.size_eq_zero]
  rfl

/-! ## Accepted documents -/

namespace Filter

/-- The element is allowed where it stands, with all of its attributes, and is no plugin content
that the filter protects. -/
structure Accepts (f : Filter) (parent? : Option String) (e : Element) : Prop where
  allowed : (f.decide e parent? false).1 = .allowed
  enabled : ∀ a ∈ (f.decide e parent? false).2.attributes.toList, a.enabled = true
  unguarded : f.settings.protectObjects = true →
    ∀ name ∈ ["object", "param", "embed"], e.isNamed name = false

mutual

/-- All elements of a tree that stands in the element `parent?` are accepted. -/
def AcceptsTree (f : Filter) (parent? : Option String) : Markup → Prop
  | .node (.element e) cs => f.Accepts parent? e ∧ AcceptsTrees f (some e.name) cs
  | .node _ _ => True

/-- All elements of a row of trees are accepted. -/
def AcceptsTrees (f : Filter) (parent? : Option String) : List Markup → Prop
  | [] => True
  | t :: ts => AcceptsTree f parent? t ∧ AcceptsTrees f parent? ts

end

variable {f : Filter}

/-- An accepted element stays as it is. -/
theorem decide_of_accepts (hf : f.policy.ListenerFree) {parent? : Option String} {e : Element}
    (he : e.Canonical) (h : f.Accepts parent? e) :
    ∃ b, f.decide e parent? false = (.allowed, e.setEnabled b) := by
  obtain ⟨d, b, hdecide, -⟩ := decide_eq hf he.condition parent? false
  obtain ⟨hallowed, henabled, -⟩ := h
  obtain rfl : d = .allowed := by rwa [hdecide] at hallowed
  refine ⟨b, ?_⟩
  rw [hdecide, if_neg (by decide)] at henabled ⊢
  have hattributes : e.attributes.toList.map
      (f.decideListed (f.policy.elementRule? e.name) .allowed e.name) = e.attributes.toList := by
    refine (List.map_congr_left fun a ha => ?_).trans (List.map_id _)
    obtain ⟨b, heq, -⟩ := decideListed_eq hf.2 (f.policy.elementRule? e.name) .allowed e.name a
    have hb : (f.decideListed (f.policy.elementRule? e.name) .allowed e.name a).enabled = true :=
      henabled _ (List.mem_map_of_mem ha)
    rw [heq] at hb ⊢
    obtain rfl : b = true := hb
    exact Attribute.setEnabled_self (he.attributes a ha).enabled
  simp only [Element.mapAttributes, Element.setEnabled, Attributes.map, hattributes]

/-- An accepted element is not protected. -/
theorem judge_of_accepts (hf : f.policy.ListenerFree) {parent? : Option String} {e : Element}
    (he : e.Canonical) (h : f.Accepts parent? e) (g : ObjectGuard) :
    ∃ b, f.judge g e parent? false = ⟨.allowed, e.setEnabled b, none, g⟩ := by
  obtain ⟨b, hdecide⟩ := decide_of_accepts hf he h
  have hprotect : f.protect g (e.setEnabled b) .allowed = (none, g, e.setEnabled b) := by
    have hname : ∀ name, (e.setEnabled b).isNamed name = e.isNamed name := fun _ => rfl
    rw [protect]
    split
    · next hprotects =>
      have hnot := h.unguarded (by simpa using hprotects)
      simp only [List.forall_mem_cons] at hnot
      obtain ⟨hobject, hparam, hembed, -⟩ := hnot
      simp [hname, hobject, hparam, hembed]
    · rfl
  refine ⟨b, ?_⟩
  rw [judge, hdecide]
  dsimp only
  rw [hprotect]

end Filter

/-! ## What is written for documents -/

theorem Attribute.Canonical.asWritten {a : Attribute} (ha : a.Canonical) : a.asWritten = a := by
  obtain ⟨name, value, quote, enabled, key, hkey⟩ := a
  obtain rfl : enabled = true := ha.enabled
  subst hkey
  cases value with
  | none => rfl
  | some value =>
    obtain ⟨hquote, hangles⟩ := ha.quoted value rfl
    have hfits := ha.value
    have hrender : renderValue quote value = value := by
      refine renderValue_eq_self hangles fun q hq => ?_
      subst hq
      exact hfits.2
    simp [Attribute.asWritten, hrender]

/-- All attributes of the element are enabled. -/
theorem Element.Canonical.enabled_eq {e : Element} (he : e.Canonical) :
    e.attributes.enabled = e.attributes.toList :=
  List.filter_eq_self.2 fun a ha => (he.attributes a ha).enabled

theorem Element.Canonical.asWritten {e : Element} (he : e.Canonical) : e.asWritten = e := by
  have hattributes : e.attributes.enabled.map Attribute.asWritten = e.attributes.toList := by
    rw [he.enabled_eq]
    exact (List.map_congr_left fun a ha => (he.spelled a ha).asWritten).trans (List.map_id _)
  obtain ⟨name, condition, attributes, enabled, ending, selfClosed⟩ := e
  obtain rfl : condition = none := he.condition
  obtain rfl : enabled = true := he.enabled
  obtain rfl : ending = .missing := he.ending
  simp only [Element.asWritten, hattributes]

namespace Filter

variable {f : Filter} {st : PieceState} {es : List (OpenEntry OpenedElement)}

/-- An allowed element is written in its usual spelling. -/
theorem toList_renderStartTag {e : Element} (he : e.Canonical) (b : Bool) :
    (f.renderStartTag (e.setEnabled b) .allowed).toList = e.write := by
  have hdisabled : e.attributes.disabled = [] :=
    List.filter_eq_nil_iff.2 fun a ha => by simp [(he.attributes a ha).enabled]
  have hcondition : (e.setEnabled b).condition = none := he.condition
  have hmarker : f.attributeMarker (e.setEnabled b) = "" := by
    rw [attributeMarker, show (e.setEnabled b).attributes = e.attributes from rfl, hdisabled]
    rfl
  have hlive : renderLiveStartTag (e.setEnabled b) = renderLiveStartTag e := rfl
  rw [renderStartTag, hcondition]
  dsimp only
  rw [hmarker, String.empty_append, hlive, toList_renderLiveStartTag, he.asWritten]

/-- The pieces are written as they are, and the same elements are open after them. -/
structure Keeps (f : Filter) (es : List (OpenEntry OpenedElement)) (st : PieceState)
    (ps : List Piece) : Prop where
  output : (f.outputFrom st ps).toList = ps.flatMap Piece.write
  opened : (f.stateAfter st ps).openElements.Represents es

theorem Keeps.append {ps qs : List Piece} (hp : f.Keeps es st ps)
    (hq : f.Keeps es (f.stateAfter st ps) qs) : f.Keeps es st (ps ++ qs) := by
  refine ⟨?_, ?_⟩
  · rw [outputFrom_append, String.toList_append, hp.output, hq.output, List.flatMap_append]
  · rw [stateAfter_append]
    exact hq.opened

/-- A piece of which the step writes the text and opens nothing. -/
theorem keeps_singleton {p : Piece} (hout : (f.step st p).1.toList = p.write)
    (hes : (f.step st p).2.openElements.Represents es) : f.Keeps es st [p] := by
  refine ⟨?_, hes⟩
  rw [outputFrom_cons, outputFrom_nil, String.append_empty, hout, List.flatMap_singleton]

/-- The name of the innermost open element. -/
def innermost? (es : List (OpenEntry OpenedElement)) : Option String :=
  es.head?.map fun e => e.item.name

theorem stepStartTag_of_accepts (hf : f.policy.ListenerFree) {e : Element} (he : e.Canonical)
    (hes : st.openElements.Represents es) (h : f.Accepts (innermost? es) e) :
    (f.step st (.startTag e)).1.toList = e.write ∧
      (f.step st (.startTag e)).2.openElements = if e.selfClosed then st.openElements
        else st.openElements.push e.name ⟨e.name, .allowed, none⟩ := by
  obtain ⟨b, hjudge⟩ := judge_of_accepts hf he h st.guard
  have hparent : st.openElements.current?.map OpenedElement.name = innermost? es := by
    rw [hes.current?_eq, innermost?]
    cases es.head? <;> rfl
  rw [step, stepStartTag, hparent, hjudge]
  exact ⟨toList_renderStartTag he b, rfl⟩

/-- The end tag of the innermost element, if that is allowed and no object. -/
theorem keeps_endTag {number : Nat} {name : String}
    (hes : st.openElements.Represents
      (⟨number, AsciiCase.lower name, false, ⟨name, .allowed, none⟩⟩ :: es)) :
    f.Keeps es st [.endTag name ("</" ++ name ++ ">")] := by
  obtain ⟨c, hc, hcloses⟩ := hes.close?_head rfl
  have hstep : f.step st (.endTag name ("</" ++ name ++ ">")) =
      ("</" ++ name ++ ">", ⟨c.remaining, st.guard⟩) := by
    have hitem : c.item = ⟨name, .allowed, none⟩ := hcloses.item
    have hover : c.overdue = false := hcloses.overdue
    simp [step, stepEndTag, hc, hitem, hover, endObject, renderEndTag]
  refine keeps_singleton ?_ ?_
  · rw [hstep]
    rfl
  · rw [hstep]
    exact hcloses.remaining

mutual

/-- **What is written for the pieces of a document is what they are.** The induction is on the
tree; while the pieces of an element are written, it is the innermost open one. -/
theorem keeps_pieces (hf : f.policy.ListenerFree) : ∀ (t : Markup) {st : PieceState}
    {es : List (OpenEntry OpenedElement)}, t.Canonical → f.AcceptsTree (innermost? es) t →
      st.openElements.Represents es → f.Keeps es st t.pieces
  | .node (.text raw) _, _, _, hc, _, hes =>
    keeps_singleton (congrArg String.toList (renderText_of_noAngles hc)) hes
  | .node (.comment body) _, _, _, hc, _, hes => by
    have hbody : CharacterReference.escapeAngles body = body := renderText_of_noAngles hc.1
    refine keeps_singleton ?_ hes
    simp [step, renderComment, hbody, Piece.write]
  | .node (.element e) cs, st, es, hc, ha, hes => by
    obtain ⟨he, -, hcs⟩ := hc
    obtain ⟨haccepts, hacs⟩ := ha
    obtain ⟨hout, hopen⟩ := stepStartTag_of_accepts hf he hes haccepts
    rw [Markup.pieces]
    split
    · next hself =>
      rw [if_pos hself] at hopen
      exact keeps_singleton hout (hopen ▸ hes)
    · next hself =>
      rw [if_neg hself] at hopen
      have hpushed := hes.push e.name (⟨e.name, .allowed, none⟩ : OpenedElement)
      rw [← hopen] at hpushed
      have hinner : f.Keeps (⟨st.openElements.nextNumber, AsciiCase.lower e.name, false,
          ⟨e.name, .allowed, none⟩⟩ :: es) (f.step st (.startTag e)).2 (Markup.piecesOfAll cs) :=
        keeps_piecesOfAll hf cs hcs hacs hpushed
      have hend := keeps_endTag (f := f) hinner.opened
      refine ⟨?_, ?_⟩
      · rw [outputFrom_cons, outputFrom_append, String.toList_append, String.toList_append, hout,
          hinner.output, hend.output, ← List.flatMap_append]
        rfl
      · have hstate : f.stateAfter st (.startTag e :: (Markup.piecesOfAll cs ++
            [.endTag e.name ("</" ++ e.name ++ ">")])) =
              f.stateAfter (f.stateAfter (f.step st (.startTag e)).2 (Markup.piecesOfAll cs))
                [.endTag e.name ("</" ++ e.name ++ ">")] := stateAfter_append ..
        rw [hstate]
        exact hend.opened

theorem keeps_piecesOfAll (hf : f.policy.ListenerFree) : ∀ (ts : List Markup) {st : PieceState}
    {es : List (OpenEntry OpenedElement)}, Markup.CanonicalAll ts →
      f.AcceptsTrees (innermost? es) ts → st.openElements.Represents es →
        f.Keeps es st (Markup.piecesOfAll ts)
  | [], _, _, _, _, hes => ⟨rfl, hes⟩
  | t :: ts, _, _, hc, ha, hes => by
    have ht := keeps_pieces hf t hc.1 ha.1 hes
    exact ht.append (keeps_piecesOfAll hf ts hc.2 ha.2 ht.opened)

end

/-- **Safe markup is filtered to itself**, by piece and by tree: a document in the usual spelling of
which all elements and attributes are allowed where they stand.

*Proof sketch.* The text of the document is read as its pieces again, up to texts that follow one
another (`Reader.pieces_write`), and by piece all of them are written as they are (`keeps_pieces`).
The document is well nested, so filtering it by tree gives the same. -/
theorem filtered_write (f : Filter) (hf : f.policy.ListenerFree) (ts : List Markup)
    (hts : Markup.CanonicalAll ts) (haccepts : f.AcceptsTrees none ts) :
    f.byTree (Markup.write ts) = Markup.write ts ∧
      f.byPiece (Markup.write ts) = Markup.write ts := by
  have htext : (Markup.write ts).toList = (Markup.piecesOfAll ts).flatMap Piece.write :=
    String.toList_ofList
  have hpieces : f.byPiece (Markup.write ts) = Markup.write ts := by
    rw [byPiece_write hts.rereads htext, ← String.toList_inj, htext]
    have hkeeps : f.Keeps [] {} (Markup.piecesOfAll ts) :=
      keeps_piecesOfAll hf ts hts haccepts .empty
    exact hkeeps.output
  have hread : Piece.ofText (Markup.write ts) = Piece.joinFrom "" (Markup.piecesOfAll ts) := by
    rw [Piece.ofText_eq_pieces, htext]
    exact Reader.pieces_write hts.rereads
  refine ⟨?_, hpieces⟩
  have hlocal := hf.hasLocalListeners
  have hwell : ∀ p ∈ Piece.ofText (Markup.write ts), p.WellRead := by
    rw [Piece.ofText_eq_pieces]
    exact Reader.wellRead_pieces _
  have hnested := (Nested.empty f).outputsFrom_eq hlocal hwell (hread ▸ hts.wellNested)
  rw [byTree_eq_walk f hlocal, Piece.ofDocument_eq_ofText, Outline.ofPieces, ← hnested,
    String.empty_append]
  exact hpieces

/-- Lists that allow items only, with classes, and items that ask for their end tags, with
titles. -/
def titledLists : Filter where
  policy :=
    { elements := ⟨[("ul", { name := "ul", attributes := ["class", "hidden"], children := ["li"] }),
        ("li", { name := "li", attributes := ["title"], requiresEndTag := true }),
        ("br", { name := "br" })]⟩
      attributes := ⟨[("class", { name := "class" }), ("hidden", { name := "hidden" }),
        ("title", { name := "title" })]⟩ }

theorem titledLists_listenerFree : titledLists.policy.ListenerFree := by
  have helements : titledLists.policy.elements.Every fun rule => rule.listeners = [] := by
    simp [RuleTable.Every, titledLists]
  have hattributes : titledLists.policy.attributes.Every fun rule => rule.listeners = [] := by
    simp [RuleTable.Every, titledLists]
  exact ⟨fun _ _ h => helements.of_find? h, fun _ _ h => hattributes.of_find? h⟩

/-- A list with quoted and minimized attributes, a tag that closes itself, and a comment. -/
def titledList : List Markup :=
  [.node (.element { name := "UL", attributes := ⟨[
      { name := "class", value := some "a b", quote := some '"' }, { name := "hidden" }]⟩ })
    [.node (.element { name := "li", attributes := ⟨[
        { name := "title", value := some "\"&amp;", quote := some '\'' }]⟩ })
      [.leaf (.text "x"), .leaf (.element { name := "br", selfClosed := true }),
        .leaf (.text "y")],
    .leaf (.comment " c ")]]

theorem canonicalAll_titledList : Markup.CanonicalAll titledList := by
  have hclass : ({ name := "class", value := some "a b", quote := some '"' } : Attribute).Canonical :=
    ⟨⟨⟨by decide, by decide, .inl rfl, by decide⟩, rfl⟩,
      fun _ h => by cases h; exact ⟨nofun, by decide, by decide⟩⟩
  have hhidden : ({ name := "hidden" } : Attribute).Canonical :=
    ⟨⟨⟨by decide, by decide, rfl⟩, rfl⟩, nofun⟩
  have htitle : ({ name := "title", value := some "\"&amp;", quote := some '\'' } :
      Attribute).Canonical :=
    ⟨⟨⟨by decide, by decide, .inr rfl, by decide⟩, rfl⟩,
      fun _ h => by cases h; exact ⟨nofun, by decide, by decide⟩⟩
  refine ⟨⟨?_, nofun, ⟨?_, nofun, ?_, ⟨?_, fun _ => rfl, trivial⟩, ?_, trivial⟩, ?_, trivial⟩,
    trivial⟩
  · have hall : ∀ a ∈ [({ name := "class", value := some "a b", quote := some '"' } : Attribute),
        { name := "hidden" }], a.Canonical := by simpa using ⟨hclass, hhidden⟩
    exact ⟨⟨⟨'U', ['L'], rfl, rfl, by decide⟩, rfl, rfl, rfl, fun a ha => (hall a ha).toWellRead,
      by decide⟩, hall⟩
  · have hall : ∀ a ∈ [({ name := "title", value := some "\"&amp;", quote := some '\'' } :
        Attribute)], a.Canonical := by simpa using htitle
    exact ⟨⟨⟨'l', ['i'], rfl, rfl, by decide⟩, rfl, rfl, rfl, fun a ha => (hall a ha).toWellRead,
      by decide⟩, hall⟩
  · exact ⟨by decide, by decide⟩
  · exact ⟨⟨⟨'b', ['r'], rfl, rfl, by decide⟩, rfl, rfl, rfl,
      fun _ h => (List.not_mem_nil h).elim, by decide⟩, fun _ h => (List.not_mem_nil h).elim⟩
  · exact ⟨by decide, by decide⟩
  · exact ⟨⟨by decide, by decide⟩, by decide⟩

/-- Items are allowed in lists only, and other elements are not allowed directly in lists. -/
theorem filtered_write_titledList :
    titledLists.policy.ListenerFree ∧ Markup.CanonicalAll titledList ∧
      titledLists.AcceptsTrees none titledList ∧
      Markup.write titledList =
        "<UL class=\"a b\" hidden><li title=\x27\"&amp;\x27>x<br/>y</li><!-- c --></UL>" ∧
      titledLists.byTree (Markup.write titledList) = Markup.write titledList ∧
      titledLists.byPiece (Markup.write titledList) = Markup.write titledList := by
  have haccepts : titledLists.AcceptsTrees none titledList := by
    refine ⟨⟨⟨?_, ?_, ?_⟩, ⟨⟨?_, ?_, ?_⟩, trivial, ⟨⟨?_, ?_, ?_⟩, trivial⟩, trivial, trivial⟩,
      trivial, trivial⟩, trivial⟩ <;> decide
  exact ⟨titledLists_listenerFree, canonicalAll_titledList, haccepts, by decide,
    filtered_write titledLists titledLists_listenerFree titledList canonicalAll_titledList haccepts⟩

end Filter

end MarkupFilter
