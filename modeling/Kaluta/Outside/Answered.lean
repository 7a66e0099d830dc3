import Kaluta.Outside.Compose

-- The subjects of replies and forwards, and whom a reply goes to.
namespace Kaluta.Outside

open Guide (Unicode toLowercase trim eqIgnoreAsciiCase ascii trim_eq_self head?_trim getLast?_trim trim_trim)

-- `strip_prefix_ci`, of which only whether there is such a prefix is asked.
def stripPrefixCi (s lead : String) : Except CoreError Bool :=
  if lead.utf8ByteSize ≤ s.utf8ByteSize && !isCharBoundary lead.utf8ByteSize s.toList then .error ⟨.other, "task panicked"⟩
  else .ok ((s.toList.take lead.length).map Char.toLower = lead.toList)

def forwardSubject (subject : String) : Except CoreError String := do
  let s := trim subject
  if ← stripPrefixCi s "fwd:" then return s
  else if ← stripPrefixCi s "fw:" then return s
  else return "Fwd: " ++ s

-- Whether a subject can be cut after so many bytes, or is shorter.
def Cuts (subject : String) (bytes : Nat) : Prop :=
  bytes ≤ (trim subject).utf8ByteSize → isCharBoundary bytes (trim subject).toList

instance : Decidable (Cuts subject bytes) :=
  inferInstanceAs (Decidable (_ → _))

section Subjects

variable {s subject lead : String}

theorem replySubject_eq (subject : String) : replySubject subject = (do
    let replied ← stripPrefixCi (trim subject) "re:"
    .ok (if replied then trim subject else "Re: " ++ trim subject)) := by
  have size : "re:".utf8ByteSize = 3 := rfl
  have length : "re:".length = 3 := rfl
  rw [replySubject, stripPrefixCi, size, length]
  change (if _ then _ else _) = _
  split
  case isTrue => rfl
  case isFalse =>
    split
    case isTrue replied => rw [decide_eq_true replied]; rfl
    case isFalse fresh  => rw [decide_eq_false fresh]; rfl

theorem stripPrefixCi_of_cuts (h : lead.utf8ByteSize ≤ s.utf8ByteSize → isCharBoundary lead.utf8ByteSize s.toList) :
    stripPrefixCi s lead = .ok ((s.toList.take lead.length).map Char.toLower = lead.toList) := by
  rw [stripPrefixCi, if_neg]
  intro panics
  have ⟨long, inside⟩ := Bool.and_eq_true_iff.mp panics
  rw [h (of_decide_eq_true long)] at inside
  cases inside

-- What is put before a subject that has something to say stays there.
theorem trim_append (visible : lead.toList.head?.all (!isWhitespace ·) = true) (lead_ne : lead ≠ "") (ne : trim s ≠ "") :
    trim (lead ++ trim s) = lead ++ trim s := by
  refine trim_eq_self (fun c hc => ?_) (fun c hc => ?_)
  · rw [String.toList_append, List.head?_append_of_ne_nil _ (String.toList_eq_nil_iff.not.mpr lead_ne)] at hc
    rw [Option.mem_def.mp hc] at visible
    simpa using visible
  · rw [String.toList_append, List.getLast?_append_of_ne_nil _ (String.toList_eq_nil_iff.not.mpr ne)] at hc
    exact getLast?_trim hc

theorem stripPrefixCi_re (s : String) : stripPrefixCi ("Re: " ++ s) "re:" = .ok true := by
  have chars : ("Re: " ++ s).toList = 'R' :: 'e' :: ':' :: ' ' :: s.toList := String.toList_append
  have cuts : isCharBoundary "re:".utf8ByteSize ("Re: " ++ s).toList := by rw [chars]; rfl
  rw [stripPrefixCi_of_cuts (fun _ => cuts), chars]
  rfl

theorem stripPrefixCi_fwd (s : String) : stripPrefixCi ("Fwd: " ++ s) "fwd:" = .ok true := by
  have chars : ("Fwd: " ++ s).toList = 'F' :: 'w' :: 'd' :: ':' :: ' ' :: s.toList := String.toList_append
  have cuts : isCharBoundary "fwd:".utf8ByteSize ("Fwd: " ++ s).toList := by rw [chars]; rfl
  rw [stripPrefixCi_of_cuts (fun _ => cuts), chars]
  rfl

theorem ok_bind {asked : Bool} {f : Bool → Except CoreError String} : (.ok asked >>= f) = f asked :=
  rfl

theorem replySubject_again (cuts : Cuts subject 3) :
    ∃ r, replySubject subject = .ok r ∧ (trim subject ≠ "" → replySubject r = .ok r) := by
  have known : stripPrefixCi (trim subject) "re:" = _ := stripPrefixCi_of_cuts cuts
  rw [replySubject_eq, known, ok_bind]
  split
  case isTrue replied =>
    refine ⟨trim subject, rfl, fun _ => ?_⟩
    rw [replySubject_eq, trim_trim, known, ok_bind, if_pos replied]
  case isFalse =>
    refine ⟨"Re: " ++ trim subject, rfl, fun ne => ?_⟩
    rw [replySubject_eq, trim_append (by decide) (by decide) ne, stripPrefixCi_re]
    rfl

theorem forwardSubject_again (cuts : ∀ bytes ∈ [3, 4], Cuts subject bytes) :
    ∃ r, forwardSubject subject = .ok r ∧ (trim subject ≠ "" → forwardSubject r = .ok r) := by
  have long : stripPrefixCi (trim subject) "fwd:" = _ := stripPrefixCi_of_cuts (cuts 4 (by decide))
  have short : stripPrefixCi (trim subject) "fw:" = _ := stripPrefixCi_of_cuts (cuts 3 (by decide))
  have known : forwardSubject subject = .ok (trim subject) ∨ forwardSubject subject = .ok ("Fwd: " ++ trim subject) := by
    rw [forwardSubject, long, ok_bind]
    split
    case isTrue => exact .inl rfl
    case isFalse =>
      rw [short, ok_bind]
      split
      case isTrue  => exact .inl rfl
      case isFalse => exact .inr rfl
  have same : forwardSubject (trim subject) = forwardSubject subject := by rw [forwardSubject, forwardSubject, trim_trim]
  rcases known with known | known
  case inl => exact ⟨trim subject, known, fun _ => same.trans known⟩
  case inr =>
    refine ⟨"Fwd: " ++ trim subject, known, fun ne => ?_⟩
    rw [forwardSubject, trim_append (by decide) (by decide) ne, stripPrefixCi_fwd]
    rfl

end Subjects

section Primary

variable {me : List String} {parent : Parent} {a : EmailAddress}

def mine (me : List String) (a : EmailAddress) : Bool :=
  me.any (eqIgnoreAsciiCase · a.email)

-- Whom a message asks to be answered: its Reply-To, or else its sender.
def answered (parent : Parent) : List EmailAddress :=
  if parent.replyTo.isEmpty then parent.sender.toList else parent.replyTo

-- A reply to oneself goes back to the recipients.
def primary (me : List String) (parent : Parent) : List EmailAddress :=
  if !(answered parent).isEmpty && (answered parent).all (mine me) then parent.to else answered parent

theorem primary_subset (mem : a ∈ primary me parent) : a ∈ answered parent ++ parent.to ++ parent.cc := by
  rw [primary] at mem
  split at mem
  case isTrue  => exact List.mem_append_left _ (List.mem_append_right _ mem)
  case isFalse => exact List.mem_append_left _ (List.mem_append_left _ mem)

-- Someone else who is asked to be answered is never passed over.
theorem primary_of_other (mem : a ∈ answered parent) (other : mine me a = false) :
    primary me parent = answered parent := by
  rw [primary, if_neg]
  intro own
  have all := List.all_eq_true.mp (Bool.and_eq_true_iff.mp own).right a mem
  rw [other] at all
  cases all

end Primary

section Recipients

variable [Unicode] {me : List String} {seen : List String} {as bs : List EmailAddress} {a b : EmailAddress}

def normalized (a : EmailAddress) : String :=
  toLowercase a.email

theorem keepFirst_cons : keepFirst me seen (a :: as) =
    if mine me a || normalized a ∈ seen then keepFirst me seen as else a :: keepFirst me (normalized a :: seen) as :=
  rfl

-- What is kept is no one's twice, not seen before and not one's own.
theorem nodup_keepFirst (me seen : List String) (as : List EmailAddress) : ((keepFirst me seen as).map normalized).Nodup ∧
    ∀ a ∈ keepFirst me seen as, a ∈ as ∧ normalized a ∉ seen ∧ mine me a = false := by
  induction as generalizing seen
  case nil => exact ⟨List.nodup_nil, fun _ mem => absurd mem List.not_mem_nil⟩
  case cons a as ih =>
    rw [keepFirst_cons]
    split
    case isTrue =>
      have ⟨nodup, kept⟩ := ih seen
      exact ⟨nodup, fun b hb => ⟨List.mem_cons_of_mem a (kept b hb).left, (kept b hb).right⟩⟩
    case isFalse new =>
      have ⟨other, unseen⟩ := not_or.mp (Bool.or_eq_true_iff.not.mp new)
      have ⟨nodup, kept⟩ := ih (normalized a :: seen)
      refine ⟨List.nodup_cons.mpr ⟨fun mem => ?_, nodup⟩, fun b hb => ?_⟩
      · have ⟨b, hb, same⟩ := List.mem_map.mp mem
        exact (kept b hb).right.left (same ▸ List.mem_cons_self)
      · rcases List.mem_cons.mp hb with rfl | hb
        · exact ⟨List.mem_cons_self, fun mem => unseen (decide_eq_true mem), Bool.eq_false_iff.mpr other⟩
        · have ⟨mem, unseen, other⟩ := kept b hb
          exact ⟨List.mem_cons_of_mem a mem, List.not_mem_of_not_mem_cons unseen, other⟩

-- Everyone else has been seen or is kept.
theorem keepFirst_complete (seen : List String) (mem : a ∈ as) (other : mine me a = false) :
    normalized a ∈ seen ∨ ∃ b ∈ keepFirst me seen as, normalized b = normalized a := by
  induction as generalizing seen
  case nil => cases mem
  case cons c as ih =>
    rw [keepFirst_cons]
    split
    case isTrue old =>
      rcases List.mem_cons.mp mem with rfl | mem
      · rw [other, Bool.false_or, decide_eq_true_iff] at old
        exact .inl old
      · exact ih seen mem
    case isFalse =>
      rcases List.mem_cons.mp mem with rfl | mem
      · exact .inr ⟨a, List.mem_cons_self, rfl⟩
      · rcases ih (normalized c :: seen) mem with old | ⟨b, hb, same⟩
        · rcases List.mem_cons.mp old with same | old
          · exact .inr ⟨c, List.mem_cons_self, same.symm⟩
          · exact .inl old
        · exact .inr ⟨b, List.mem_cons_of_mem c hb, same⟩

section Kept

variable (parent : Parent) (me : List String) (all : Bool)

theorem replyRecipients_eq : replyRecipients parent me all = (keepFirst me [] (primary me parent),
    if all then keepFirst me ((keepFirst me [] (primary me parent)).map normalized) (parent.to ++ parent.cc) else []) :=
  rfl

theorem nodup_recipients : (((replyRecipients parent me all).1 ++ (replyRecipients parent me all).2).map normalized).Nodup := by
  rw [replyRecipients_eq, List.map_append]
  refine List.nodup_append.mpr ⟨(nodup_keepFirst _ _ _).left, ?_, fun k hk k' hk' same => ?_⟩
  · cases all
    case false => exact List.nodup_nil
    case true  => exact (nodup_keepFirst _ _ _).left
  · cases all
    case false => cases hk'
    case true =>
      have ⟨b, hb, key⟩ := List.mem_map.mp hk'
      exact ((nodup_keepFirst _ _ _).right b hb).right.left (key ▸ same ▸ hk)

theorem recipients_others : ∀ a ∈ (replyRecipients parent me all).1 ++ (replyRecipients parent me all).2,
    mine me a = false ∧ a ∈ answered parent ++ parent.to ++ parent.cc := by
  intro a mem
  rw [replyRecipients_eq] at mem
  rcases List.mem_append.mp mem with mem | mem
  · have ⟨from_, _, other⟩ := (nodup_keepFirst _ _ _).right a mem
    exact ⟨other, primary_subset from_⟩
  · cases all
    case false => cases mem
    case true =>
      have ⟨from_, _, other⟩ := (nodup_keepFirst _ _ _).right a mem
      exact ⟨other, by rw [List.append_assoc]; exact List.mem_append_right _ from_⟩

theorem recipients_complete {a : EmailAddress} (mem : a ∈ answered parent ++ parent.to ++ parent.cc) (other : mine me a = false) :
    ∃ b ∈ (replyRecipients parent me true).1 ++ (replyRecipients parent me true).2, normalized b = normalized a := by
  rw [replyRecipients_eq]
  rw [List.append_assoc] at mem
  rcases List.mem_append.mp mem with mem | mem
  · rcases keepFirst_complete [] mem other with none | ⟨b, hb, same⟩
    · cases none
    · rw [← primary_of_other mem other] at hb
      exact ⟨b, List.mem_append_left _ hb, same⟩
  · have complete := keepFirst_complete ((keepFirst me [] (primary me parent)).map normalized) mem other
    rcases complete with seen | ⟨b, hb, same⟩
    · have ⟨b, hb, same⟩ := List.mem_map.mp seen
      exact ⟨b, List.mem_append_left _ hb, same⟩
    · exact ⟨b, List.mem_append_right _ hb, same⟩

theorem recipients_ne_nil (h : (∃ a ∈ answered parent, mine me a = false) ∨
    answered parent ≠ [] ∧ ∃ a ∈ parent.to, mine me a = false) : (replyRecipients parent me all).1 ≠ [] := by
  have ⟨a, mem, other⟩ : ∃ a ∈ primary me parent, mine me a = false := by
    by_cases others : ∃ a ∈ answered parent, mine me a = false
    case pos =>
      have ⟨a, mem, other⟩ := others
      exact ⟨a, primary_of_other mem other ▸ mem, other⟩
    case neg =>
      have ⟨ne, back⟩ := h.resolve_left others
      rw [primary, if_pos]
      · exact back
      · rw [Bool.and_eq_true_iff, List.all_eq_true]
        refine ⟨by simpa using ne, fun a mem => ?_⟩
        exact Bool.eq_true_of_not_eq_false (fun other => others ⟨a, mem, other⟩)
  intro none
  rcases keepFirst_complete [] mem other with seen | ⟨b, hb, _⟩
  · cases seen
  · have none : keepFirst me [] (primary me parent) = [] := none
    rw [none] at hb
    cases hb

end Kept

end Recipients

theorem replies_right [Unicode] :
    (∀ subject, Cuts subject 3 → ∃ r, replySubject subject = .ok r ∧ (trim subject ≠ "" → replySubject r = .ok r)) ∧
    (∀ subject, (∀ bytes ∈ [3, 4], Cuts subject bytes) →
      ∃ r, forwardSubject subject = .ok r ∧ (trim subject ≠ "" → forwardSubject r = .ok r)) ∧
    ∀ (parent : Parent) (me : List String) (all : Bool), ∃ to_ cc, replyRecipients parent me all = (to_, cc) ∧
      ((to_ ++ cc).map normalized).Nodup ∧
      (∀ a ∈ to_ ++ cc, mine me a = false ∧ a ∈ answered parent ++ parent.to ++ parent.cc) ∧
      (all = true → ∀ a ∈ answered parent ++ parent.to ++ parent.cc, mine me a = false →
        ∃ b ∈ to_ ++ cc, normalized b = normalized a) ∧
      ((∃ a ∈ answered parent, mine me a = false) ∨ (answered parent ≠ [] ∧ ∃ a ∈ parent.to, mine me a = false) →
        to_ ≠ []) := by
  refine ⟨fun _ => replySubject_again, fun _ => forwardSubject_again, fun parent me all => ?_⟩
  refine ⟨_, _, rfl, nodup_recipients parent me all, recipients_others parent me all, ?_, recipients_ne_nil parent me all⟩
  rintro rfl a mem other
  exact recipients_complete parent me mem other

section Differing

attribute [local instance] ascii

def elsewhere : Parent where
  id       := "m"
  threadId := "t"
  sender   := some ⟨none, "alex@example.com"⟩
  replyTo  := [⟨none, "list@example.org"⟩]

-- A character across the third byte, a blank subject, and a sender who asks to be answered elsewhere.
theorem replies_differ :
    replySubject "abé" = .error ⟨.other, "task panicked"⟩ ∧
    (replySubject "" = .ok "Re: " ∧ replySubject "Re: " = .ok "Re:") ∧
    replyRecipients elsewhere ["me@example.net"] true = ([⟨none, "list@example.org"⟩], []) := by
  decide

end Differing

end Kaluta.Outside
