import Kaluta.Quotes.Sanitized
import Mathlib.Data.Bool.AllAny

-- What folding inserts into sanitized HTML: one wrapper, from where a quote starts to the end of its siblings.
namespace Kaluta.Quotes

open Guide (Unicode)

-- A place among siblings, and what is written before and after these.
structure Place where
  before   : Chars
  siblings : List Node
  index    : Nat
  after    : Chars

-- The end of a list of siblings, and what is written before and after it.
structure Quote where
  front  : Chars
  quoted : List Node
  after  : Chars

-- Whether a reader sees something of a node itself.
def Node.shows : Node → Bool
  | .text t            => !(trimmed (decode t)).isEmpty
  | .element name _ .. => name = "img".toList

section Search

variable [Unicode]

-- The quote that starts at a place.
def Place.quote (p : Place) : Option Quote :=
  (quoteStart p.siblings p.index).map fun start =>
    { front := p.before ++ writeAll (p.siblings.take start), quoted := p.siblings.drop start, after := p.after }

def Place.shows (p : Place) : Bool :=
  p.quote.isNone && (p.siblings[p.index]?).any Node.shows

mutual

-- The places of a document where a quote is looked for, in its order: of a list of siblings, those up to its first.
def placesIn (before after : Chars) : Node → List Place
  | .text _                               => []
  | .element name opening children closed =>
    placesFrom (before ++ opening) (closingTag name opening closed ++ after) children 0 children

def placesFrom (before after : Chars) (siblings : List Node) (i : Nat) : List Node → List Place
  | []           => []
  | node :: todo =>
    { before, siblings, index := i, after } ::
      if (quoteStart siblings i).isSome then []
      else placesIn (before ++ writeAll (siblings.take i)) (writeAll todo ++ after) node ++
        placesFrom before after siblings (i + 1) todo

end

-- The first quote with something in front of it that the reader sees, and not answered inline.
def firstFoldable (seen : Bool) : List Place → Option Quote
  | []      => none
  | p :: ps =>
    match p.quote.filter fun q => seen && !inlineReply q.quoted with
    | some q => some q
    | none   => firstFoldable (seen || p.shows) ps

-- The quote of a document that is folded.
def quoteToFold (nodes : List Node) : Option Quote :=
  firstFoldable false (placesFrom [] [] nodes 0 nodes)

end Search

-- Nodes with a wrapper around the end of one of their lists.
inductive Folds : List Node → List Node → List Node → Prop
  | here (some' : quoted ≠ []) : Folds quoted quoted [wrapper quoted]
  | inside : Folds quoted children children' →
    Folds quoted (.element name opening children closed :: after) (.element name opening children' closed :: after)
  | later : Folds quoted nodes nodes' → Folds quoted (node :: nodes) (node :: nodes')

theorem Folds.behind (front : List Node) (h : Folds quoted nodes nodes') :
    Folds quoted (front ++ nodes) (front ++ nodes') := by
  induction front
  case nil       => exact h
  case cons _ ih => exact .later ih

theorem write_wrapper (quoted : List Node) : write (wrapper quoted) = OPEN ++ writeAll quoted ++ CLOSE := by
  rw [wrapper, write, closingTag, if_pos (by decide), if_pos rfl]

theorem writeAll_append (ns ns' : List Node) : writeAll (ns ++ ns') = writeAll ns ++ writeAll ns' := by
  induction ns
  case nil       => rfl
  case cons _ ih => rw [List.cons_append, writeAll, writeAll, ih, List.append_assoc]

-- That a quote of nodes is folded, when these stand between two texts.
structure Quote.Folded (q : Quote) (before after : Chars) (nodes nodes' : List Node) : Prop where
  folds  : Folds q.quoted nodes nodes'
  input  : before ++ writeAll nodes ++ after = q.front ++ writeAll q.quoted ++ q.after
  output : before ++ writeAll nodes' ++ after = q.front ++ OPEN ++ writeAll q.quoted ++ CLOSE ++ q.after

namespace Quote.Folded

variable {q : Quote} {before after : Chars} {nodes nodes' : List Node}

theorem here {start : Nat} (lt : start < nodes.length) :
    Folded { front := before ++ writeAll (nodes.take start), quoted := nodes.drop start, after } before after nodes
      (nodes.take start ++ [wrapper (nodes.drop start)]) where
  folds  := by
    have folds := Folds.behind (nodes.take start) (.here (by simp; omega : nodes.drop start ≠ []))
    rwa [List.take_append_drop] at folds
  input  := by
    have all := writeAll_append (nodes.take start) (nodes.drop start)
    rw [List.take_append_drop] at all
    simp only [all, List.append_assoc]
  output := by
    rw [writeAll_append, writeAll, writeAll, write_wrapper]
    simp only [List.append_nil, List.append_assoc]

theorem behind (front : List Node) (h : q.Folded (before ++ writeAll front) after nodes nodes') :
    q.Folded before after (front ++ nodes) (front ++ nodes') where
  folds  := h.folds.behind front
  input  := by rw [writeAll_append, ← List.append_assoc before]; exact h.input
  output := by rw [writeAll_append, ← List.append_assoc before]; exact h.output

theorem inside {name opening : Chars} {closed : Bool} {todo : List Node}
    (h : q.Folded (before ++ opening) (closingTag name opening closed ++ (writeAll todo ++ after)) nodes nodes') :
    q.Folded before after (.element name opening nodes closed :: todo) (.element name opening nodes' closed :: todo) where
  folds  := .inside h.folds
  input  := by
    rw [writeAll, write, ← h.input]
    simp only [List.append_assoc]
  output := by
    rw [writeAll, write, ← h.output]
    simp only [List.append_assoc]

end Quote.Folded

section Fold

variable [Unicode]

theorem quoteStart_le {nodes : List Node} (h : quoteStart nodes i = some start) : start ≤ i ∧ i < nodes.length := by
  rw [quoteStart] at h
  split at h
  case h_1 => cases h
  case h_2 there =>
    have lt := (List.getElem?_eq_some_iff.mp there).fst
    split at h <;> cases h
    exact ⟨le_rfl, lt⟩
  case h_3 there =>
    have lt := (List.getElem?_eq_some_iff.mp there).fst
    have header : headerStart nodes i ≤ i := by
      rw [headerStart]
      split <;> omega
    split at h
    case isTrue  => cases h; exact ⟨le_rfl, lt⟩
    case isFalse =>
      dsimp only at h
      split at h
      case isTrue  => cases h; exact ⟨le_rfl, lt⟩
      case isFalse =>
        split at h
        case isTrue  => cases h; exact ⟨header, lt⟩
        case isFalse => cases h

-- What the reader has seen once some places are passed.
def shown (seen : Bool) (ps : List Place) : Bool :=
  seen || ps.any (·.shows)

theorem shown_cons (seen : Bool) (p : Place) (ps : List Place) : shown seen (p :: ps) = shown (seen || p.shows) ps := by
  rw [shown, shown, List.any_cons, Bool.or_assoc]

theorem shown_append (seen : Bool) (ps ps' : List Place) : shown seen (ps ++ ps') = shown (shown seen ps) ps' := by
  rw [shown, shown, shown, List.any_append, Bool.or_assoc]

theorem firstFoldable_append (seen : Bool) (ps ps' : List Place) : firstFoldable seen (ps ++ ps') =
    (firstFoldable seen ps).or (firstFoldable (shown seen ps) ps') := by
  induction ps generalizing seen
  case nil          => simp [firstFoldable, shown]
  case cons p ps ih =>
    rw [List.cons_append, firstFoldable, firstFoldable, shown_cons]
    split
    case h_1 => rfl
    case h_2 => exact ih _

mutual

-- Folding finds the first quote that is to be folded, and folds it.
theorem foldNode_finds (node : Node) (seen : Bool) (before after : Chars) (todo : List Node) :
    match firstFoldable (seen || node.shows) (placesIn before (writeAll todo ++ after) node) with
    | none   =>
      foldNode node seen = (none, shown (seen || node.shows) (placesIn before (writeAll todo ++ after) node))
    | some q => ∃ node' seen', foldNode node seen = (some node', seen') ∧
      q.Folded before after (node :: todo) (node' :: todo) := by
  match node with
  | .text t                               => simp [placesIn, firstFoldable, foldNode, shown, Node.shows]
  | .element name opening children closed =>
    have found := foldFrom_finds children 0 children (seen || name = "img".toList) (before ++ opening)
      (closingTag name opening closed ++ (writeAll todo ++ after)) rfl
    rw [placesIn, foldNode, Node.shows]
    split at found
    case h_1 => simp only [found]
    case h_2 =>
      obtain ⟨children', seen', eq, folded⟩ := found
      simp only [eq]
      exact ⟨_, _, rfl, folded.inside⟩
  termination_by structural node

theorem foldFrom_finds (nodes : List Node) (i : Nat) (todo : List Node) (seen : Bool) (before after : Chars)
    (rest : nodes.drop i = todo) :
    match firstFoldable seen (placesFrom before after nodes i todo) with
    | none   => foldFrom nodes i todo seen = (none, shown seen (placesFrom before after nodes i todo))
    | some q => ∃ nodes' seen', foldFrom nodes i todo seen = (some nodes', seen') ∧
      q.Folded before after nodes nodes' := by
  match todo with
  | []           => simp [placesFrom, firstFoldable, foldFrom, shown]
  | node :: todo =>
    have there : nodes[i]? = some node := by rw [← List.head?_drop, rest, List.head?_cons]
    rw [placesFrom, foldFrom, firstFoldable, shown_cons]
    cases is : quoteStart nodes i
    case some start =>
      have lt : start < nodes.length := (quoteStart_le is).left.trans_lt (quoteStart_le is).right
      have left : (!seen || inlineReply (nodes.drop start)) = !(seen && !inlineReply (nodes.drop start)) := by
        rw [Bool.not_and, Bool.not_not]
      cases foldable : seen && !inlineReply (nodes.drop start)
      case true  =>
        simp only [Place.quote, is, Option.map_some, Option.filter_some, left, foldable, if_true, Bool.not_true,
          Bool.false_eq_true, if_false]
        exact ⟨_, _, rfl, .here lt⟩
      case false =>
        simp only [Place.quote, Place.shows, is, Option.map_some, Option.filter_some, left, foldable, if_true,
          Bool.not_false, Option.isSome_some, Option.isNone_some, Bool.false_eq_true, if_false, Bool.false_and,
          Bool.or_false, firstFoldable, shown, List.any_nil]
    case none =>
      have here := foldNode_finds node seen (before ++ writeAll (nodes.take i)) after todo
      have later := foldFrom_finds nodes (i + 1) todo (shown (seen || node.shows)
        (placesIn (before ++ writeAll (nodes.take i)) (writeAll todo ++ after) node)) before after
        (by rw [← List.tail_drop, rest, List.tail_cons])
      simp only [Place.quote, Place.shows, is, there, Option.map_none, Option.filter_none, Option.isNone_none,
        Option.isSome_none, Option.any_some, Bool.true_and, Bool.false_eq_true, if_false, firstFoldable_append,
        shown_append]
      split at here
      case h_1 none' =>
        simp only [here, none', Option.none_or]
        exact later
      case h_2 q some' =>
        obtain ⟨node', seen', eq, folded⟩ := here
        simp only [eq, some', Option.some_or]
        have folded := folded.behind (nodes.take i)
        rw [← rest, List.take_append_drop] at folded
        exact ⟨_, _, rfl, folded⟩
  termination_by structural todo

end

end Fold

namespace Html

def noText : Text := ⟨[], List.not_mem_nil⟩

-- The text in front of the first element, and what is behind it.
def front : Html → Text
  | last t | void t .. | element t .. => t

def behind : Html → Html
  | last _                        => last noText
  | void _ tag isVoid rest        => void noText tag isVoid rest
  | element _ tag notVoid cs rest => element noText tag notVoid cs rest

def details : Tag where
  name       := "details".toList
  attributes :=
    [{ name := "class".toList, value := "kaluta-quote".toList, plain := List.all_iff_forall_prop.mp (by decide),
       quoted := by decide }]
  nonempty   := by decide
  lower      := List.all_iff_forall_prop.mp (by decide)

def summary : Tag where
  name       := "summary".toList
  attributes :=
    [{ name := "title".toList, value := "Show the quoted text".toList, plain := List.all_iff_forall_prop.mp (by decide),
       quoted := by decide }]
  nonempty   := by decide
  lower      := List.all_iff_forall_prop.mp (by decide)

-- A list of nodes in the wrapper, behind a text.
def wrapped (t : Text) (quoted : Html) : Html :=
  element t details (by decide)
    (element noText summary (by decide) (last ⟨"•••".toList, by decide⟩) quoted)
    (last noText)

theorem render_wrapped (t : Text) (quoted : Html) :
    (wrapped t quoted).render = t ++ OPEN ++ quoted.render ++ CLOSE := by
  have opening : details.opening ++ (summary.opening ++ ("•••".toList ++ summary.closing)) = OPEN := by decide
  have closing : details.closing = CLOSE := by decide
  simp only [wrapped, render, ← opening, closing, noText, List.nil_append, List.append_nil, List.append_assoc]

-- A tree with a wrapper around the end of one of its lists.
inductive Wraps : List Node → Html → Html → Prop
  | all : Wraps h.nodes h (wrapped noText h)
  | behindText : Wraps h.behind.nodes h (wrapped h.front h.behind)
  | afterVoid {isVoid} : Wraps quoted rest rest' → Wraps quoted (void t tag isVoid rest) (void t tag isVoid rest')
  | inside {notVoid} : Wraps quoted children children' →
    Wraps quoted (element t tag notVoid children rest) (element t tag notVoid children' rest)
  | after {notVoid} : Wraps quoted rest rest' →
    Wraps quoted (element t tag notVoid children rest) (element t tag notVoid children rest')

theorem folds_textNode {nodes nodes' : List Node} (h : Folds quoted (textNode t ++ nodes) nodes') :
    quoted = textNode t ++ nodes ∧ nodes' = [wrapper quoted] ∨
      ∃ tail, Folds quoted nodes tail ∧ nodes' = textNode t ++ tail := by
  rw [textNode] at h ⊢
  split at h
  case isTrue none' => exact .inr ⟨nodes', h, by rw [if_pos none']; rfl⟩
  case isFalse some' =>
    rw [if_neg some']
    cases h
    case here         => exact .inl ⟨rfl, rfl⟩
    case later folds  => exact .inr ⟨_, folds, rfl⟩

theorem writeAll_wrapper (h : Html) (t : Text) :
    writeAll (textNode t ++ [wrapper h.nodes]) = (wrapped t h).render := by
  rw [writeAll_textNode, render_wrapped, writeAll, writeAll, write_wrapper, writeAll_nodes]
  simp

theorem writeAll_element (tag : Tag) (notVoid : tag.name ∉ VOID) (children nodes : List Node) :
    writeAll (.element tag.name tag.opening children true :: nodes) =
      tag.opening ++ writeAll children ++ tag.closing ++ writeAll nodes := by
  rw [writeAll, write, closingTag, if_neg tag.opening_ne, if_pos (by simp [notVoid, tag.nonempty])]
  rfl

-- Folded nodes of a tree are the nodes of one with a wrapper.
theorem wraps_of_folds (h : Html) {nodes' : List Node} (folds : Folds quoted h.nodes nodes') :
    ∃ h', Wraps quoted h h' ∧ writeAll nodes' = h'.render := by
  have all (h : Html) : ∃ h', Wraps h.nodes h h' ∧ writeAll [wrapper h.nodes] = h'.render :=
    ⟨_, .all, writeAll_wrapper h noText⟩
  have behindText (h : Html) :
      ∃ h', Wraps h.behind.nodes h h' ∧ writeAll (textNode h.front ++ [wrapper h.behind.nodes]) = h'.render :=
    ⟨_, .behindText, writeAll_wrapper h.behind h.front⟩
  induction h generalizing nodes'
  case last t =>
    rw [nodes, ← List.append_nil (textNode t)] at folds
    rcases folds_textNode folds with ⟨rfl, rfl⟩ | ⟨_, folds, _⟩
    · rw [List.append_nil]
      exact all (last t)
    · cases folds
      contradiction
  case void t tag isVoid rest ih =>
    rcases folds_textNode folds with ⟨rfl, rfl⟩ | ⟨tail, folded, eq⟩
    · exact all (void t tag isVoid rest)
    · rw [eq]
      clear folds eq
      cases folded
      case here         => exact behindText (void t tag isVoid rest)
      case inside folds => cases folds; contradiction
      case later folds  =>
        obtain ⟨rest', wraps, eq⟩ := ih folds
        refine ⟨_, .afterVoid wraps, ?_⟩
        rw [writeAll_textNode, writeAll, write, eq, render]
        simp [writeAll, closingTag]
  case element t tag notVoid children rest ihChildren ihRest =>
    rcases folds_textNode folds with ⟨rfl, rfl⟩ | ⟨tail, folded, eq⟩
    · exact all (element t tag notVoid children rest)
    · rw [eq]
      clear folds eq
      cases folded
      case here         => exact behindText (element t tag notVoid children rest)
      case inside folds =>
        obtain ⟨children', wraps, eq⟩ := ihChildren folds
        refine ⟨_, .inside wraps, ?_⟩
        rw [writeAll_textNode, writeAll_element tag notVoid, eq, writeAll_nodes, render]
        simp
      case later folds =>
        obtain ⟨rest', wraps, eq⟩ := ihRest folds
        refine ⟨_, .after wraps, ?_⟩
        rw [writeAll_textNode, writeAll_element tag notVoid, eq, writeAll_nodes, render]
        simp

end Html

-- Sanitized HTML is written as it was read, and folding it puts the wrapper around the quote that is to be folded.
theorem foldQuotedHtml_wraps [Unicode] (h : Html) :
    writeAll (parse h.render) = h.render ∧
    match quoteToFold h.nodes with
    | none   => foldQuotedHtml h.render = h.render
    | some q =>
      (∃ h', Html.Wraps q.quoted h h' ∧ foldQuotedHtml h.render = h'.render) ∧
      h.render = q.front ++ writeAll q.quoted ++ q.after ∧
      foldQuotedHtml h.render = q.front ++ OPEN ++ writeAll q.quoted ++ CLOSE ++ q.after := by
  rw [foldQuotedHtml, parse_render]
  refine ⟨writeAll_nodes h, ?_⟩
  have found := foldFrom_finds h.nodes 0 h.nodes false [] [] rfl
  rw [quoteToFold]
  split at found
  case h_1 => simp only [found]
  case h_2 q _ =>
    obtain ⟨nodes', _, eq, folds, input, output⟩ := found
    rw [List.nil_append, List.append_nil] at input output
    simp only [eq]
    obtain ⟨h', wraps, is⟩ := Html.wraps_of_folds h folds
    exact ⟨⟨h', wraps, is⟩, writeAll_nodes h ▸ input, output⟩

end Kaluta.Quotes
