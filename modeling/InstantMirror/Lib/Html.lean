import Mathlib.Data.List.Chain
import InstantMirror.Lib.Bytes

/-!
# Reading HTML

How a browser takes a piece of HTML apart: bytes are read one after the other, by a machine
whose states are those of the HTML tokenizer (`InstantMirror.Html.State`), and come out as
characters, tags and comments (`InstantMirror.Html.Token`). Two things change nothing in what is a
tag and what is not: a character reference is kept as the characters it is written with, to be
read afterwards (`InstantMirror.Html.Names.decode`), and a declaration is taken for a comment. The
elements whose contents are read in another way – `script`, `title` and their like – are not
known.

What a program has to know that writes text it was given into a page is in two lemmas. In a
quoted value, nothing but the quote ends the value (`InstantMirror.Html.run_value`). Between tags,
a text comes out as its characters exactly if no `<` in it is followed by a byte that opens
markup (`InstantMirror.Html.run_data`, `InstantMirror.Html.noMarkup_of_prefix`).
-/

namespace InstantMirror

namespace Html

/-! ### Tokens -/

/-- A tag that is being read. -/
structure Tag where
  /-- It starts with `</`. -/
  isEnd : Bool
  /-- Its name, in lower case. -/
  name : Bytes
  /-- Its attributes. -/
  attrs : List (Bytes × Bytes)
deriving DecidableEq

/-- **What HTML is made of.** -/
inductive Token where
  /-- A character. -/
  | char (c : UInt8) : Token
  /-- A start tag, with its attributes. -/
  | startTag (name : Bytes) (attrs : List (Bytes × Bytes)) : Token
  /-- An end tag. -/
  | endTag (name : Bytes) : Token
  /-- A comment. -/
  | comment (text : Bytes) : Token
deriving DecidableEq

/-- The token of a tag that has been read. -/
def Tag.token (tag : Tag) : Token :=
  if tag.isEnd then .endTag tag.name else .startTag tag.name tag.attrs

/-- The tag with another attribute. -/
def Tag.add (tag : Tag) (name value : Bytes) : Tag :=
  { tag with attrs := tag.attrs ++ [(name, value)] }

/-! ### The machine -/

/-- **The states of the tokenizer.** -/
inductive State where
  /-- Between tags. -/
  | data : State
  /-- After `<`. -/
  | tagOpen : State
  /-- After `</`. -/
  | endTagOpen : State
  /-- In the name of a tag. -/
  | tagName (tag : Tag) : State
  /-- Before the name of an attribute. -/
  | attributes (tag : Tag) : State
  /-- In the name of an attribute. -/
  | attrName (tag : Tag) (name : Bytes) : State
  /-- After the name of an attribute. -/
  | afterAttrName (tag : Tag) (name : Bytes) : State
  /-- After the `=` of an attribute. -/
  | beforeValue (tag : Tag) (name : Bytes) : State
  /-- In a value, up to this quote if there is one. -/
  | value (quote : Option UInt8) (tag : Tag) (name text : Bytes) : State
  /-- After `<!`. -/
  | declaration : State
  /-- After `<!-`. -/
  | declarationDash : State
  /-- In a comment, whose text is kept backwards. -/
  | comment (text : Bytes) : State
  /-- In what is taken for a comment, up to the next `>`. -/
  | bogusComment (text : Bytes) : State
deriving DecidableEq

/-- White space. -/
def isBlank (c : UInt8) : Bool := c = 9 ∨ c = 10 ∨ c = 12 ∨ c = 13 ∨ c = 32

/-- A letter. -/
def isAlpha (c : UInt8) : Bool := (65 ≤ c ∧ c ≤ 90) ∨ (97 ≤ c ∧ c ≤ 122)

/-- A letter in lower case. -/
def toLower (c : UInt8) : UInt8 := if 65 ≤ c ∧ c ≤ 90 then c + 32 else c

/-- The comment that a `>` closes, if it does: one stands behind two dashes, or where the
comment has just begun. -/
def closedComment : Bytes → Option Bytes
  | [] | [45] => some []
  | 45 :: 45 :: text => some text.reverse
  | _ => none

/-- **One byte is read.** -/
def State.step : State → UInt8 → State × List Token
  | .data, c => if c = 60 then (.tagOpen, []) else (.data, [.char c])
  | .tagOpen, c =>
    if isAlpha c then (.tagName ⟨false, [toLower c], []⟩, [])
    else if c = 47 then (.endTagOpen, [])
    else if c = 33 then (.declaration, [])
    else if c = 63 then (.bogusComment [c], [])
    -- the `<` was a character, and the byte is read between tags
    else if c = 60 then (.tagOpen, [.char 60])
    else (.data, [.char 60, .char c])
  | .endTagOpen, c =>
    if isAlpha c then (.tagName ⟨true, [toLower c], []⟩, [])
    else if c = 62 then (.data, [])
    else (.bogusComment [c], [])
  | .tagName tag, c =>
    if isBlank c ∨ c = 47 then (.attributes tag, [])
    else if c = 62 then (.data, [tag.token])
    else (.tagName { tag with name := tag.name ++ [toLower c] }, [])
  | .attributes tag, c =>
    if isBlank c ∨ c = 47 then (.attributes tag, [])
    else if c = 62 then (.data, [tag.token])
    else (.attrName tag [toLower c], [])
  | .attrName tag name, c =>
    if isBlank c then (.afterAttrName tag name, [])
    else if c = 47 then (.attributes (tag.add name []), [])
    else if c = 62 then (.data, [(tag.add name []).token])
    else if c = 61 then (.beforeValue tag name, [])
    else (.attrName tag (name ++ [toLower c]), [])
  | .afterAttrName tag name, c =>
    if isBlank c then (.afterAttrName tag name, [])
    else if c = 47 then (.attributes (tag.add name []), [])
    else if c = 62 then (.data, [(tag.add name []).token])
    else if c = 61 then (.beforeValue tag name, [])
    else (.attrName (tag.add name []) [toLower c], [])
  | .beforeValue tag name, c =>
    if isBlank c then (.beforeValue tag name, [])
    else if c = 34 ∨ c = 39 then (.value (some c) tag name [], [])
    else if c = 62 then (.data, [(tag.add name []).token])
    else (.value none tag name [c], [])
  | .value (some quote) tag name text, c =>
    if c = quote then (.attributes (tag.add name text), [])
    else (.value (some quote) tag name (text ++ [c]), [])
  | .value none tag name text, c =>
    if isBlank c then (.attributes (tag.add name text), [])
    else if c = 62 then (.data, [(tag.add name text).token])
    else (.value none tag name (text ++ [c]), [])
  | .declaration, c =>
    if c = 45 then (.declarationDash, [])
    else if c = 62 then (.data, [.comment []])
    else (.bogusComment [c], [])
  | .declarationDash, c =>
    if c = 45 then (.comment [], [])
    else if c = 62 then (.data, [.comment [45]])
    else (.bogusComment [45, c], [])
  | .comment text, c =>
    match if c = 62 then closedComment text else none with
    | some closed => (.data, [.comment closed])
    | none => (.comment (c :: text), [])
  | .bogusComment text, c =>
    if c = 62 then (.data, [.comment text]) else (.bogusComment (text ++ [c]), [])

/-- What comes out at the end: a `<` that nothing follows is a character, and what is not
finished is dropped. -/
def State.finish : State → List Token
  | .tagOpen => [.char 60]
  | .endTagOpen => [.char 60, .char 47]
  | _ => []

/-- **The tokens of a text**, read from this state on. -/
def run (st : State) : Bytes → List Token
  | [] => st.finish
  | c :: s => (st.step c).2 ++ run (st.step c).1 s

/-- The tokens of a piece of HTML. -/
def tokens (html : Bytes) : List Token := run .data html

/-- The state after a text, and what has come out. -/
def State.after (st : State) : Bytes → State × List Token
  | [] => (st, [])
  | c :: s => (((st.step c).1.after s).1, (st.step c).2 ++ ((st.step c).1.after s).2)

/-- A text is read piece by piece. -/
theorem run_append (st : State) (s t : Bytes) :
    run st (s ++ t) = (st.after s).2 ++ run (st.after s).1 t := by
  induction s generalizing st with
  | nil => rfl
  | cons c s ih => rw [List.cons_append, run, ih, State.after, List.append_assoc]

/-- A piece that was read once need not be read again. -/
theorem run_append_of_after {st st' : State} {s : Bytes} {ts : List Token}
    (h : st.after s = (st', ts)) (t : Bytes) : run st (s ++ t) = ts ++ run st' t := by
  rw [run_append, h]

/-! ### Values -/

/-- **In a quoted value, nothing but the quote ends the value.** -/
theorem run_value {quote : UInt8} {s : Bytes} (hs : quote ∉ s) (tag : Tag) (name text t : Bytes) :
    run (.value (some quote) tag name text) (s ++ quote :: t) =
      run (.attributes (tag.add name (text ++ s))) t := by
  induction s generalizing text with
  | nil => simp [run, State.step]
  | cons c s ih =>
    have hc : c ≠ quote := fun he => hs (he ▸ List.mem_cons_self)
    have hrest := ih (fun hmem => hs (List.mem_cons_of_mem c hmem)) (text ++ [c])
    rw [List.append_assoc, List.singleton_append] at hrest
    simpa [run, State.step, hc] using hrest

/-! ### Text -/

/-- A byte that makes something else than a character of a `<` before it. -/
def opensMarkup (c : UInt8) : Bool := isAlpha c || c = 47 || c = 33 || c = 63

/-- **No `<` is followed by a byte that opens markup.** -/
def NoMarkup (s : Bytes) : Prop := s.IsChain fun a b => a = 60 → opensMarkup b = false

instance (s : Bytes) : Decidable (NoMarkup s) := by
  rw [NoMarkup]
  infer_instance

theorem noMarkup_cons_cons {a b : UInt8} {s : Bytes} :
    NoMarkup (a :: b :: s) ↔ (a = 60 → opensMarkup b = false) ∧ NoMarkup (b :: s) :=
  List.isChain_cons_cons

theorem NoMarkup.tail {a : UInt8} {s : Bytes} (h : NoMarkup (a :: s)) : NoMarkup s :=
  List.IsChain.tail h

/-- A byte that opens no markup is a character, and so is the `<` before it. -/
theorem run_tagOpen {c : UInt8} (h : opensMarkup c = false) (s : Bytes) :
    run .tagOpen (c :: s) = .char 60 :: run .data (c :: s) := by
  simp only [opensMarkup, Bool.or_eq_false_iff, decide_eq_false_iff_not] at h
  obtain ⟨⟨⟨hα, hslash⟩, hbang⟩, hquestion⟩ := h
  by_cases hc : c = 60
  · subst hc
    simp [run, State.step, hα]
  · simp [run, State.step, hα, hslash, hbang, hquestion, hc]

/-- **A text without markup comes out as its characters**, up to the next `<`. -/
theorem run_data {s : Bytes} (hs : NoMarkup s) (t : Bytes) :
    run .data (s ++ 60 :: t) = s.map .char ++ run .tagOpen t := by
  induction s with
  | nil => simp [run, State.step]
  | cons c s ih =>
    have hrest := ih hs.tail
    by_cases hc : c = 60
    · -- the next byte opens no markup, be it of the text or the `<` behind it
      subst hc
      have hopen : run .tagOpen (s ++ 60 :: t) = .char 60 :: run .data (s ++ 60 :: t) := by
        cases s with
        | nil => exact run_tagOpen (by decide) t
        | cons b s => exact run_tagOpen ((noMarkup_cons_cons.mp hs).1 rfl) _
      have hstep : run .data (60 :: (s ++ 60 :: t)) = run .tagOpen (s ++ 60 :: t) := by
        simp [run, State.step]
      rw [List.cons_append, hstep, hopen, hrest]
      rfl
    · have hstep : run .data (c :: (s ++ 60 :: t)) = .char c :: run .data (s ++ 60 :: t) := by
        simp [run, State.step, hc]
      rw [List.cons_append, hstep, hrest]
      rfl

/-- The state is one inside a tag or a comment. -/
def State.InMarkup : State → Prop
  | .data | .tagOpen | .endTagOpen => False
  | _ => True

/-- The token is a character. -/
def Token.IsChar (t : Token) : Prop := ∃ c, t = .char c

theorem Tag.token_not_isChar (tag : Tag) : ¬ tag.token.IsChar := by
  rintro ⟨c, hc⟩
  rw [Tag.token] at hc
  split at hc <;> cases hc

theorem Token.comment_not_isChar (text : Bytes) : ¬ (Token.comment text).IsChar := by
  rintro ⟨c, hc⟩
  cases hc

/-- **Inside a tag or a comment**, one byte more is inside, or makes a token that is no
character. -/
theorem State.InMarkup.step {st : State} (h : st.InMarkup) (c : UInt8) :
    ((st.step c).1.InMarkup ∧ (st.step c).2 = []) ∨ ∃ t, ¬ t.IsChar ∧ (st.step c).2 = [t] := by
  rcases st with _ | _ | _ | tag | tag | ⟨tag, name⟩ | ⟨tag, name⟩ | ⟨tag, name⟩ |
    ⟨_ | quote, tag, name, text⟩ | _ | _ | text | text
  · exact h.elim
  · exact h.elim
  · exact h.elim
  all_goals
    rw [State.step]
    repeat' split
    all_goals first
      | exact .inl ⟨trivial, rfl⟩
      | exact .inr ⟨_, Tag.token_not_isChar _, rfl⟩
      | exact .inr ⟨_, Token.comment_not_isChar _, rfl⟩

/-- What comes out next, inside a tag or a comment, is no character. -/
theorem State.InMarkup.head {st : State} (h : st.InMarkup) (s : Bytes) {t : Token}
    {ts : List Token} (hrun : run st s = t :: ts) : ¬ t.IsChar := by
  induction s generalizing st with
  | nil => cases st <;> first | exact h.elim | cases hrun
  | cons c s ih =>
    rw [run] at hrun
    rcases h.step c with ⟨hin, hnil⟩ | ⟨t', hchar, heq⟩
    · rw [hnil, List.nil_append] at hrun
      exact ih hin hrun
    · rw [heq, List.singleton_append] at hrun
      exact (List.cons.inj hrun).1 ▸ hchar

/-- A byte that opens markup, other than `/`, leads inside. -/
theorem inMarkup_of_opensMarkup {c : UInt8} (h : opensMarkup c = true) (hslash : c ≠ 47) :
    (State.tagOpen.step c).1.InMarkup ∧ (State.tagOpen.step c).2 = [] := by
  simp only [opensMarkup, Bool.or_eq_true, decide_eq_true_eq] at h
  rw [State.step]
  split_ifs <;> first | exact ⟨trivial, rfl⟩ | tauto

/-- **A text that comes out as its characters has no markup.** -/
theorem noMarkup_of_prefix {s : Bytes} (hslash : 47 ∉ s) {t : Bytes}
    (h : s.map .char <+: run .data (s ++ t)) : NoMarkup s := by
  induction s with
  | nil => exact List.isChain_nil
  | cons c s ih =>
    have ih' := ih fun hmem => hslash (List.mem_cons_of_mem c hmem)
    by_cases hc : c = 60
    · subst hc
      have hstep : run .data (60 :: s ++ t) = run .tagOpen (s ++ t) := by
        simp [run, State.step]
      rw [hstep, List.map_cons] at h
      cases s with
      | nil => exact List.isChain_singleton _
      | cons b s =>
        cases hb : opensMarkup b with
        | true =>
          -- what comes out next would have to be the `<`
          have hne : b ≠ 47 := fun he => hslash (by simp [he])
          obtain ⟨hin, hnil⟩ := inMarkup_of_opensMarkup hb hne
          obtain ⟨ts, hts⟩ := h
          rw [List.cons_append, List.cons_append, run, hnil, List.nil_append] at hts
          exact absurd ⟨60, rfl⟩ (hin.head _ hts.symm)
        | false =>
          rw [List.cons_append, run_tagOpen hb, List.cons_prefix_cons] at h
          exact noMarkup_cons_cons.mpr ⟨fun _ => hb, ih' h.2⟩
    · have hstep : run .data (c :: s ++ t) = .char c :: run .data (s ++ t) := by
        simp [run, State.step, hc]
      rw [hstep, List.map_cons, List.cons_prefix_cons] at h
      cases s with
      | nil => exact List.isChain_singleton _
      | cons b s => exact noMarkup_cons_cons.mpr ⟨fun he => absurd he hc, ih' h.2⟩

/-! ### Anchors -/

/-- An anchor: its attributes, and what it contains. -/
structure Anchor where
  /-- The attributes of the start tag. -/
  attrs : List (Bytes × Bytes)
  /-- What stands before the end tag. -/
  content : List Token
deriving DecidableEq

/-- The name of an anchor. -/
def anchorName : Bytes := ascii "a"

/-- **The anchors**: all the start tags of that name, each with what follows up to an end tag. -/
def anchors : List Token → List Anchor
  | [] => []
  | .startTag name attrs :: ts =>
    if name = anchorName then ⟨attrs, ts.takeWhile (· ≠ .endTag anchorName)⟩ :: anchors ts
    else anchors ts
  | _ :: ts => anchors ts

/-- The token starts an anchor. -/
def Token.opensAnchor : Token → Bool
  | .startTag name _ => name = anchorName
  | _ => false

/-- Other tokens may be passed over. -/
theorem anchors_append {l : List Token} (h : ∀ t ∈ l, t.opensAnchor = false) (ts : List Token) :
    anchors (l ++ ts) = anchors ts := by
  induction l with
  | nil => rfl
  | cons t l ih =>
    have hrest := ih fun t ht => h t (List.mem_cons_of_mem _ ht)
    have ht := h t List.mem_cons_self
    rw [List.cons_append, ← hrest]
    cases t with
    | startTag name attrs => exact if_neg (by simpa [Token.opensAnchor] using ht)
    | char c => rfl
    | endTag name => rfl
    | comment text => rfl

theorem opensAnchor_of_mem_chars (s : Bytes) : ∀ t ∈ s.map Token.char, t.opensAnchor = false := by
  intro t ht
  obtain ⟨c, -, rfl⟩ := List.mem_map.mp ht
  rfl

/-- An anchor around a text. -/
theorem anchors_startTag (attrs : List (Bytes × Bytes)) (s : Bytes) (ts : List Token) :
    anchors (.startTag anchorName attrs :: (s.map .char ++ .endTag anchorName :: ts)) =
      ⟨attrs, s.map .char⟩ :: anchors ts := by
  have hchars := opensAnchor_of_mem_chars s
  have hcontent : (s.map Token.char ++ Token.endTag anchorName :: ts).takeWhile
      (· ≠ Token.endTag anchorName) = s.map Token.char := by
    rw [List.takeWhile_append_of_pos (by simp), List.takeWhile_cons_of_neg (by simp),
      List.append_nil]
  rw [anchors, if_pos rfl, hcontent, anchors_append hchars]
  rfl

/-- **A piece of HTML without anchors**, read from between tags to between tags. -/
def WithoutAnchors (s : Bytes) : Prop :=
  (State.data.after s).1 = .data ∧ ∀ t ∈ (State.data.after s).2, t.opensAnchor = false

instance (s : Bytes) : Decidable (WithoutAnchors s) := by
  rw [WithoutAnchors]
  infer_instance

theorem WithoutAnchors.anchors_run {s : Bytes} (h : WithoutAnchors s) (t : Bytes) :
    anchors (run .data (s ++ t)) = anchors (run .data t) := by
  rw [run_append, h.1, anchors_append h.2]

/-- A text without `<` is one. -/
theorem withoutAnchors_of_notMem {s : Bytes} (hs : 60 ∉ s) : WithoutAnchors s := by
  have hafter : State.data.after s = (.data, s.map .char) := by
    induction s with
    | nil => rfl
    | cons c s ih =>
      have hc : c ≠ 60 := fun he => hs (he ▸ List.mem_cons_self)
      have hrest := ih fun hmem => hs (List.mem_cons_of_mem c hmem)
      simp [State.after, State.step, hc, hrest]
  rw [WithoutAnchors, hafter]
  exact ⟨rfl, opensAnchor_of_mem_chars s⟩

end Html

end InstantMirror
