import Mathlib.Data.List.Forall2

-- Conditions as SQL writes them, and how they are read back: NOT binds before AND, and AND before OR.
namespace Condition

inductive Token (α : Type u)
  | atom (a : α)
  | not
  | and
  | or
  | left
  | right
  deriving DecidableEq

inductive Tree (α : Type u)
  | atom (a : α)
  | not (c : Tree α)
  | and (c c' : Tree α)
  | or (c c' : Tree α)

-- What a reader has left to do once an operand ends.
inductive Frame (α : Type u)
  | not
  | and (c : Tree α)
  | or (c : Tree α)
  | left

variable {α : Type u}

def Tree.eval (holds : α → Bool) : Tree α → Bool
  | atom a   => holds a
  | not c    => !c.eval holds
  | and c c' => c.eval holds && c'.eval holds
  | or c c'  => c.eval holds || c'.eval holds

-- An operand ends what binds before OR.
def settle (c : Tree α) : List (Frame α) → Tree α × List (Frame α)
  | .not :: k    => settle (.not c) k
  | .and c' :: k => settle (.and c' c) k
  | k            => (c, k)

def settleOr : Tree α × List (Frame α) → Tree α × List (Frame α)
  | (c, .or c' :: k) => (.or c' c, k)
  | p                => p

-- Reads on with no operand yet, or behind one.
def reading : Option (Tree α) → List (Frame α) → List (Token α) → Option (Tree α)
  | none  , k, .atom a :: ts =>
    let (c, k) := settle (.atom a) k
    reading (some c) k ts
  | none  , k, .not :: ts    => reading none (.not :: k) ts
  | none  , k, .left :: ts   => reading none (.left :: k) ts
  | some c, k, .and :: ts    => reading none (.and c :: k) ts
  | some c, k, .or :: ts     =>
    let (c, k) := settleOr (c, k)
    reading none (.or c :: k) ts
  | some c, k, .right :: ts  =>
    match settleOr (c, k) with
    | (c, .left :: k) =>
      let (c, k) := settle c k
      reading (some c) k ts
    | _               => none
  | some c, k, []            =>
    match settleOr (c, k) with
    | (c, []) => some c
    | _       => none
  | _     , _, _             => none

attribute [grind =] reading settle settleOr

def read (ts : List (Token α)) : Option (Tree α) :=
  reading none [] ts

def parens (ts : List (Token α)) : List (Token α) :=
  .left :: (ts ++ [.right])

-- Parts with a word between each two.
def join (word : Token α) : List (List (Token α)) → List (Token α)
  | []      => []
  | p :: ps => p ++ ps.flatMap (word :: ·)

variable {ts ts' : List (Token α)} {c c' : Tree α} {k k' : List (Frame α)}

-- Where a whole condition may begin, and where it may end.
def Opens : List (Frame α) → Prop
  | []         => True
  | .left :: _ => True
  | _          => False

def Closes : List (Token α) → Prop
  | []          => True
  | .right :: _ => True
  | _           => False

-- A text that is read as an operand wherever one may stand.
def Operand (ts : List (Token α)) (c : Tree α) : Prop :=
  ∀ k rest, reading none k (ts ++ rest) = reading (some (settle c k).1) (settle c k).2 rest

-- A text that is read as a condition between parentheses, and by itself.
def Whole (ts : List (Token α)) (c : Tree α) : Prop :=
  ∀ k rest, Opens k → Closes rest → reading none k (ts ++ rest) = reading (some c) k rest

-- A text that is no condition where one has to end.
def Broken (ts : List (Token α)) : Prop :=
  ∀ k rest, Closes rest → reading none k (ts ++ rest) = none

-- A text that no condition goes on from, whatever follows it.
def Refused (ts : List (Token α)) : Prop :=
  ∀ k rest, reading none k (ts ++ rest) = none

theorem settle_opens (h : Opens k) : settle c k = (c, k) := by
  unfold Opens at h
  split at h
  · rfl
  · rfl
  · cases h

theorem settleOr_opens (h : Opens k) : settleOr (c, k) = (c, k) := by
  unfold Opens at h
  split at h
  · rfl
  · rfl
  · cases h

theorem Whole.read (h : Whole ts c) : read ts = some c := by
  have := h [] [] trivial trivial
  rw [List.append_nil] at this
  exact this

theorem Broken.read (h : Broken ts) : read ts = none := by
  have := h [] [] trivial
  rwa [List.append_nil] at this

theorem Operand.whole (h : Operand ts c) : Whole ts c := by
  intro k rest opens _
  rw [h k rest, settle_opens opens]

theorem operand_atom (a : α) : Operand [.atom a] (.atom a) :=
  fun _ _ => rfl

theorem Operand.not (h : Operand ts c) : Operand (.not :: ts) (.not c) :=
  fun k rest => h (.not :: k) rest

theorem Whole.parens (h : Whole ts c) : Operand (parens ts) c := by
  intro k rest
  have inside := h (.left :: k) (.right :: rest) trivial trivial
  rw [Condition.parens, List.cons_append, List.append_assoc]
  exact inside

theorem Refused.broken (h : Refused ts) : Broken ts :=
  fun k rest _ => h k rest

theorem Refused.not (h : Refused ts) : Refused (.not :: ts) :=
  fun k rest => h (.not :: k) rest

theorem Broken.parens (h : Broken ts) : Refused (parens ts) := by
  intro k rest
  have inside := h (.left :: k) (.right :: rest) trivial
  rw [Condition.parens, List.cons_append, List.append_assoc]
  exact inside

theorem broken_nil : Broken ([] : List (Token α)) := by
  intro k rest closes
  unfold Closes at closes
  split at closes
  · rfl
  · rfl
  · cases closes

section Join

variable {p : List (Token α)} {ps : List (List (Token α))} {cs : List (Tree α)} {word : Token α} {rest : List (Token α)}

theorem operand_of_mem (h : List.Forall₂ Operand ps cs) (mem : p ∈ ps) : ∃ c, Operand p c := by
  induction h
  case nil => cases mem
  case cons first _ ih =>
    rcases List.mem_cons.mp mem with rfl | mem
    · exact ⟨_, first⟩
    · exact ih mem

theorem reading_and (h : List.Forall₂ Operand ps cs) (opens : Opens k) :
    reading (some c) k (ps.flatMap (.and :: ·) ++ rest) = reading (some (cs.foldl .and c)) k rest := by
  induction h generalizing c
  case nil => rfl
  case cons p c₁ ps cs first _ ih =>
    rw [List.flatMap_cons, List.append_assoc, List.cons_append]
    calc reading (some c) k (.and :: (p ++ (ps.flatMap (.and :: ·) ++ rest)))
      _ = reading (some (.and c c₁)) k (ps.flatMap (.and :: ·) ++ rest) := by
        rw [reading, first, settle, settle_opens opens]
      _ = reading (some (cs.foldl .and (.and c c₁))) k rest := ih

theorem whole_and (first : Operand p c) (h : List.Forall₂ Operand ps cs) :
    Whole (join .and (p :: ps)) (cs.foldl .and c) := by
  intro k rest opens _
  rw [join, List.append_assoc, first, settle_opens opens, reading_and h opens]

theorem reading_closes (closes : Closes rest) (opens : Opens k) (settled : settleOr (c, k') = (c', k)) :
    reading (some c) k' rest = reading (some c') k rest := by
  cases rest
  case nil => rw [reading, reading, settled, settleOr_opens opens]
  case cons t rest =>
    cases t <;> try cases closes
    rw [reading, reading, settled, settleOr_opens opens]

theorem reading_or (h : List.Forall₂ Operand ps cs) (opens : Opens k) (closes : Closes rest)
    (settled : settleOr (c, k') = (c', k)) :
    reading (some c) k' (ps.flatMap (.or :: ·) ++ rest) = reading (some (cs.foldl .or c')) k rest := by
  induction h generalizing c c' k'
  case nil => exact reading_closes closes opens settled
  case cons p c₁ ps cs first _ ih =>
    rw [List.flatMap_cons, List.append_assoc, List.cons_append]
    calc reading (some c) k' (.or :: (p ++ (ps.flatMap (.or :: ·) ++ rest)))
      _ = reading (some c₁) (.or c' :: k) (ps.flatMap (.or :: ·) ++ rest) := by
        rw [reading, settled]
        exact first _ _
      _ = reading (some (cs.foldl .or (.or c' c₁))) k rest := ih rfl

theorem whole_or (first : Operand p c) (h : List.Forall₂ Operand ps cs) :
    Whole (join .or (p :: ps)) (cs.foldl .or c) := by
  intro k rest opens closes
  rw [join, List.append_assoc, first, settle_opens opens]
  exact reading_or h opens closes (settleOr_opens opens)

theorem reading_refused (binary : word = .and ∨ word = .or) (each : ∀ p ∈ ps, (∃ c, Operand p c) ∨ Refused p)
    (some' : ∃ p ∈ ps, Refused p) : reading (some c) k (ps.flatMap (word :: ·) ++ rest) = none := by
  induction ps generalizing c k
  case nil =>
    obtain ⟨p, mem, -⟩ := some'
    cases mem
  case cons p ps ih =>
    have between (k) : reading none k (p ++ (ps.flatMap (word :: ·) ++ rest)) = none := by
      obtain ⟨p', mem, refused⟩ := some'
      rcases List.mem_cons.mp mem with rfl | mem
      · exact refused _ _
      · rcases each p List.mem_cons_self with ⟨c₁, operand⟩ | refused'
        · rw [operand]
          exact ih (fun p mem => each p (List.mem_cons_of_mem _ mem)) ⟨p', mem, refused⟩
        · exact refused' _ _
    rw [List.flatMap_cons, List.append_assoc, List.cons_append]
    rcases binary with rfl | rfl
    · rw [reading, between]
    · rw [reading]
      exact between _

theorem refused_join (binary : word = .and ∨ word = .or) (each : ∀ p ∈ ps, (∃ c, Operand p c) ∨ Refused p)
    (some' : ∃ p ∈ ps, Refused p) : Refused (join word ps) := by
  intro k rest
  obtain ⟨p', mem, refused⟩ := some'
  cases ps
  case nil => cases mem
  case cons p ps =>
    rw [join, List.append_assoc]
    rcases List.mem_cons.mp mem with rfl | mem
    · exact refused _ _
    · rcases each p List.mem_cons_self with ⟨c, operand⟩ | refused'
      · rw [operand]
        exact reading_refused binary (fun p mem => each p (List.mem_cons_of_mem _ mem)) ⟨p', mem, refused⟩
      · exact refused' _ _

end Join

section Atoms

variable {a : α} {ps : List (List (Token α))} {word : Token α}

theorem mem_parens : .atom a ∈ parens ts ↔ .atom a ∈ ts := by
  simp [parens]

theorem mem_of_mem_join (binary : word = .and ∨ word = .or) (h : .atom a ∈ join word ps) :
    ∃ p ∈ ps, .atom a ∈ p := by
  have apart : .atom a ≠ word := by rcases binary with rfl | rfl <;> simp
  cases ps
  case nil => cases h
  case cons p ps =>
    rcases List.mem_append.mp h with first | later
    · exact ⟨p, List.mem_cons_self, first⟩
    · obtain ⟨p', mem, ha⟩ := List.mem_flatMap.mp later
      exact ⟨p', List.mem_cons_of_mem _ mem, (List.mem_cons.mp ha).resolve_left apart⟩

end Atoms

section Eval

variable {holds : α → Bool} {cs : List (Tree α)}

theorem eval_and : (cs.foldl .and c).eval holds = (c.eval holds && cs.all (·.eval holds)) := by
  induction cs generalizing c
  case nil          => simp
  case cons c' cs ih => rw [List.foldl_cons, ih, Tree.eval, List.all_cons, Bool.and_assoc]

theorem eval_or : (cs.foldl .or c).eval holds = (c.eval holds || cs.any (·.eval holds)) := by
  induction cs generalizing c
  case nil          => simp
  case cons c' cs ih => rw [List.foldl_cons, ih, Tree.eval, List.any_cons, Bool.or_assoc]

end Eval

end Condition
