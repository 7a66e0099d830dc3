import Mathlib.Algebra.Order.BigOperators.Group.List
import Kaluta.Agents.Meta
import Kaluta.Guide.Groups
import Kaluta.Agents.Routed

-- Following the writing guide, in the app and from a published snapshot, in which every address is a salted hash.
namespace Kaluta.WritingGuide

open Guide (Unicode toLowercase trim eqIgnoreAsciiCase splitWhitespace isMember Scope Check)
open Agents (rsplitOnce)

class Sha256 where
  digest : List UInt8 → List UInt8

-- What the standard library takes for a letter or a digit.
class Alphanumeric where
  isAlphanumeric : Char → Bool

export Sha256 (digest)
export Alphanumeric (isAlphanumeric)

structure AudienceGroup where
  name    : String
  members : List String := [] -- Addresses or `@domain`s; in a hashed set, their hashes.
  deriving DecidableEq

structure AudienceGroups where
  salt   : Option String := none -- Set when every member is a salted hash.
  groups : List AudienceGroup := []
  deriving DecidableEq

-- An accepted entry of the guide.
structure Entry where
  id        : Int
  category  : String
  kind      : Guide.Kind
  statement : String
  scope     : Scope := {}
  check     : Option Check := none
  deriving DecidableEq

-- The message being drafted, as far as it is known.
structure Target where
  recipients  : List String := []
  messageType : Option String := none
  audiences   : Option (List String) := none -- Those chosen for the draft instead of the recipients' own.

-- A check that a draft failed.
structure CheckFailure where
  entryId   : Int
  statement : String
  message   : String
  deriving DecidableEq

def hex (bytes : List UInt8) : List Char :=
  bytes.flatMap fun b => [Nat.digitChar (b.toNat / 16), Nat.digitChar (b.toNat % 16)]

def bytes (s : String) : List UInt8 :=
  s.toByteArray.data.toList

section Matching

variable [Unicode] [Sha256]

-- An address or `@domain` as published: over the salt, a zero byte, and the trimmed and lower-cased address.
def hashAddress (salt address : String) : String :=
  .ofList (hex (digest (bytes salt ++ 0 :: bytes (toLowercase (trim address)))))

namespace AudienceGroups

-- The same groups with every member hashed. Groups already hashed stay as they are.
def hashed (groups : AudienceGroups) (salt : String) : AudienceGroups :=
  if groups.salt.isSome then groups
  else
    { salt := some salt
      groups := groups.groups.map fun g => { g with members := g.members.map (hashAddress salt) } }

-- Audience members and the people an entry is scoped to are matched alike.
def «matches» (groups : AudienceGroups) (address : String) (members : List String) : Bool :=
  match groups.salt with
  | none      => isMember address members
  | some salt =>
    let a    := toLowercase (trim address)
    let keys := hashAddress salt a :: ((rsplitOnce a).map fun p => hashAddress salt ("@" ++ p.2)).toList
    members.any fun m => keys.any fun k => eqIgnoreAsciiCase m k

-- The recipients' audiences, in group order.
def audiencesOf (groups : AudienceGroups) (recipients : List String) : List String :=
  (groups.groups.filter fun g => recipients.any (groups.matches · g.members)).map (·.name)

end AudienceGroups

-- The audiences the message is written for: those chosen, or the recipients' confirmed ones.
def Target.audiencesIn (target : Target) (groups : AudienceGroups) : List String :=
  target.audiences.getD (groups.audiencesOf target.recipients)

-- People and audiences narrow a scope, and naming what the message is not keeps it out.
def appliesIn (scope : Scope) (target : Target) (audiences : List String) (groups : AudienceGroups) : Bool :=
  let people   := scope.people = [] ∨ target.recipients.any (groups.matches · scope.people)
  let inGroups := scope.groups = [] ∨ scope.groups.any fun g => audiences.any (eqIgnoreAsciiCase · g)
  let types    := scope.messageTypes = [] ∨ target.messageType.any (· ∈ scope.messageTypes)
  people ∧ inGroups ∧ types

end Matching

section Checks

variable [Unicode] [Alphanumeric]

def APOSTROPHE : Char := .ofNat 0x27

def words (s : String) : List String :=
  ((s.toList.splitOnP fun c => !isAlphanumeric c && c ≠ APOSTROPHE).filter (· ≠ [])).map fun w => toLowercase (.ofList w)

-- Whether a phrase occurs in a text as words, in any case.
def containsPhrase (text phrase : String) : Bool :=
  let p := words phrase
  p ≠ [] ∧ (words text).tails.any (p.isPrefixOf ·)

-- What a text breaks of a check.
def broken (check : Check) (text : String) : Option String :=
  let value := check.value
  match check.kind with
  | .bannedPhrase   => if containsPhrase text value then some s!"Uses “{value}”, which your rules ban" else none
  | .requiredPhrase => if containsPhrase text value then none else some s!"Leaves out “{value}”, which your rules require"
  | .maxWords       =>
    (parseUnsigned (2 ^ 64) value.toList).bind fun limit =>
      let words := (splitWhitespace text).length
      if words ≤ limit then none else some s!"Is {words} words; your guide says at most {limit}"

end Checks

-- A version of an agent mailbox's guide. In the app its addresses are plain, and it is published hashed.
structure Snapshot where
  entries   : List Entry := []
  audiences : AudienceGroups := {}
  deriving DecidableEq

namespace Snapshot

variable [Unicode] [Sha256]

-- The entries that apply to a message.
def applying (s : Snapshot) (target : Target) : List Entry :=
  s.entries.filter fun e => appliesIn e.scope target (target.audiencesIn s.audiences) s.audiences

-- What a draft's own text breaks. Checks scoped to a language are left to the agent.
def check [Alphanumeric] (s : Snapshot) (target : Target) (text : String) : List CheckFailure :=
  ((s.applying target).filter (·.scope.languages = [])).filterMap fun e =>
    (e.check.bind (broken · text)).map fun message => { entryId := e.id, statement := e.statement, message }

end Snapshot

section Publishing

variable [Unicode] [Sha256]

def Entry.hashed (salt : String) (e : Entry) : Entry :=
  { e with scope := { e.scope with people := e.scope.people.map (hashAddress salt) } }

namespace Snapshot

-- The same snapshot with every address that it names hashed, for publishing.
def hashed (s : Snapshot) (salt : String) : Snapshot :=
  if s.audiences.salt.isSome then s
  else { entries := s.entries.map (.hashed salt), audiences := s.audiences.hashed salt }

-- The addresses that a snapshot names: audience members, and the people entries are scoped to.
def addresses (s : Snapshot) : List (List String) :=
  s.audiences.groups.map (·.members) ++ s.entries.map (·.scope.people)

end Snapshot

end Publishing

end Kaluta.WritingGuide

-- Whom a list of members has, and whom a list of hashed members knows.
namespace Kaluta.WritingGuide

open Guide (Unicode toLowercase trim isMember ascii trim_eq_self head?_trim getLast?_trim)
open Agents (rsplitOnce)

-- What stands before and after the last `@`.
theorem rsplitOnce_eq {address : String} {p : String × String} (h : rsplitOnce address = some p) :
    address.toList = p.1.toList ++ '@' :: p.2.toList := by
  rw [rsplitOnce] at h
  split at h
  case h_1 => cases h
  case h_2 c before found =>
    cases h
    have sep := List.head?_dropWhile_not (· ≠ '@') address.toList.reverse
    rw [found, List.head?_cons] at sep
    obtain rfl : c = '@' := by simpa using sep
    have whole := List.takeWhile_append_dropWhile (p := (· ≠ '@')) (l := address.toList.reverse)
    rw [found] at whole
    have := congrArg List.reverse whole
    simpa using this.symm

section Laws

variable [Unicode]

def IsLower (c : Char) : Prop :=
  toLowercase (.singleton c) = .singleton c

end Laws

-- What is documented of the lower case of letters.
class LawfulUnicode [Unicode] : Prop where
  isLower_of_mem {s : String} {c : Char} : c ∈ (toLowercase s).toList → IsLower c
  toLowercase_eq_self {s : String} : (∀ c ∈ s.toList, IsLower c) → toLowercase s = s
  trim_toLowercase (s : String) : trim (toLowercase (trim s)) = toLowercase (trim s)
  isLower_ascii {c : Char} : c.toNat < 128 → c.toLower = c → IsLower c

theorem toNat_toLower (c : Char) : c.toLower.toNat = if 65 ≤ c.toNat ∧ c.toNat ≤ 90 then c.toNat + 32 else c.toNat := by
  have upper : (c.val ≥ 'A'.val ∧ c.val ≤ 'Z'.val) ↔ 65 ≤ c.toNat ∧ c.toNat ≤ 90 := by
    simp only [ge_iff_le, UInt32.le_iff_toNat_le]
    rfl
  by_cases h : c.val ≥ 'A'.val ∧ c.val ≤ 'Z'.val
  case pos =>
    obtain ⟨_, high⟩ := upper.mp h
    rw [if_pos (upper.mp h)]
    refine (congrArg Char.toNat (dif_pos h)).trans ?_
    change (c.val + 32).toNat = c.val.toNat + 32
    change c.val.toNat ≤ 90 at high
    rw [UInt32.toNat_add]
    exact Nat.mod_eq_of_lt (show c.val.toNat + 32 < 2 ^ 32 by omega)
  case neg =>
    rw [if_neg (upper.not.mp h)]
    exact congrArg Char.toNat (dif_neg h)

theorem toLower_toLower (c : Char) : c.toLower.toLower = c.toLower := by
  refine Char.toNat_inj.mp ?_
  simp only [toNat_toLower]
  repeat' split
  all_goals omega

theorem isWhitespace_toLower (c : Char) : isWhitespace c.toLower = isWhitespace c := by
  simp only [isWhitespace, toNat_toLower]
  split
  case isTrue h =>
    rw [Bool.eq_iff_iff]
    simp only [Bool.or_eq_true, Bool.and_eq_true, decide_eq_true_eq]
    omega
  case isFalse => rfl

instance : @LawfulUnicode ascii := by
  let _ : Unicode := ascii
  have lower (s : String) : (toLowercase s).toList = s.toList.map Char.toLower := String.toList_ofList
  have isLower {c : Char} : IsLower c ↔ c.toLower = c := by
    rw [IsLower, ← String.toList_inj, lower]
    simp
  refine ⟨fun h => ?_, fun h => ?_, fun s => ?_, fun _ h => isLower.mpr h⟩
  case refine_1 =>
    rw [lower] at h
    obtain ⟨c, _, rfl⟩ := List.mem_map.mp h
    exact isLower.mpr (toLower_toLower c)
  case refine_2 =>
    rw [← String.toList_inj, lower, List.map_congr_left fun c hc => isLower.mp (h c hc), List.map_id']
  case refine_3 =>
    refine trim_eq_self (fun c hc => ?_) fun c hc => ?_
    · rw [lower, List.head?_map] at hc
      obtain ⟨c, first, rfl⟩ := Option.mem_map.mp hc
      exact (isWhitespace_toLower c).trans (head?_trim first)
    · rw [lower, List.getLast?_map] at hc
      obtain ⟨c, last, rfl⟩ := Option.mem_map.mp hc
      exact (isWhitespace_toLower c).trans (getLast?_trim last)

section Recognised

variable [Unicode] {salt a : String} {members : List String}

-- An address as it is compared.
def normal (address : String) : List Char :=
  (toLowercase (trim address)).toList

theorem isMember_iff : isMember a members = true ↔
    ∃ m ∈ members, if (normal m).head? = some '@' then normal m <:+ normal a else normal a = normal m := by
  simp only [isMember, List.any_eq_true]
  refine exists_congr fun m => and_congr_right fun _ => ?_
  change (if (normal m).head? = some '@' then (normal m).isSuffixOf (normal a) else decide (normal a = normal m)) = true ↔ _
  split
  · exact List.isSuffixOf_iff_suffix
  · exact decide_eq_true_iff

-- What a hashed list of members knows an address by: itself, or the domain after its last `@`.
def Recognises (members : List String) (a : String) : Prop :=
  ∃ m ∈ members, normal m = normal a ∨ ∃ p ∈ rsplitOnce (toLowercase (trim a)), normal m = '@' :: p.2.toList

theorem Recognises.isMember (h : Recognises members a) : isMember a members = true := by
  obtain ⟨m, hm, same | ⟨p, hp, domain⟩⟩ := h
  case inl =>
    refine isMember_iff.mpr ⟨m, hm, ?_⟩
    split
    · exact same ▸ List.suffix_rfl
    · exact same.symm
  case inr =>
    refine isMember_iff.mpr ⟨m, hm, ?_⟩
    rw [domain, List.head?_cons, if_pos rfl]
    exact ⟨p.1.toList, (rsplitOnce_eq hp).symm⟩

-- Where a domain has another `@` in it, the members have what follows the last as well.
def DomainsKept (members : List String) : Prop :=
  ∀ m ∈ members, ∀ x e, normal m = '@' :: (x ++ '@' :: e) → '@' ∉ e → ∃ m' ∈ members, normal m' = '@' :: e

theorem rsplitOnce_normal {x e : List Char} (h : normal a = x ++ '@' :: e) (last : '@' ∉ e) :
    rsplitOnce (toLowercase (trim a)) = some (.ofList x, .ofList e) := by
  have whole : toLowercase (trim a) = .ofList x ++ "@" ++ .ofList e := by
    rw [← String.toList_inj]
    refine h.trans ?_
    simp
  rw [whole]
  exact Primitive.rsplitOnce_append _ (by simpa using last)

theorem DomainsKept.recognises (kept : DomainsKept members) (h : Guide.isMember a members = true) : Recognises members a := by
  obtain ⟨m, hm, belongs⟩ := isMember_iff.mp h
  split at belongs
  case isFalse => exact ⟨m, hm, .inl belongs.symm⟩
  case isTrue domain =>
    obtain ⟨before, whole⟩ := belongs
    obtain ⟨d, hd⟩ : ∃ d, normal m = '@' :: d := by
      cases hn : normal m
      case nil      => rw [hn] at domain; cases domain
      case cons c d => rw [hn] at domain; cases domain; exact ⟨d, rfl⟩
    rw [hd] at whole
    by_cases more : '@' ∈ d
    case neg => exact ⟨m, hm, .inr ⟨_, rsplitOnce_normal whole.symm more, by rw [hd, String.toList_ofList]⟩⟩
    case pos =>
      obtain ⟨p, hp⟩ : ∃ p, rsplitOnce (.ofList d) = some p := Primitive.rsplitOnce_isSome (by simpa using more)
      have split_ : d = p.1.toList ++ '@' :: p.2.toList := by simpa using rsplitOnce_eq hp
      have last := Primitive.rsplitOnce_domain hp
      rw [split_] at hd whole
      obtain ⟨m', hm', eq⟩ := kept m hm _ _ hd last
      have parts : normal a = (before ++ '@' :: p.1.toList) ++ '@' :: p.2.toList := by simp [← whole]
      exact ⟨m', hm', .inr ⟨_, rsplitOnce_normal parts last, by rw [eq, String.toList_ofList]⟩⟩

variable [LawfulUnicode]

theorem normal_isLower {c : Char} (h : c ∈ normal a) : IsLower c :=
  LawfulUnicode.isLower_of_mem h

theorem normal_ofList {cs : List Char} (lower : ∀ c ∈ cs, IsLower c) (first : ∀ c ∈ cs.head?, isWhitespace c = false)
    (last : ∀ c ∈ cs.getLast?, isWhitespace c = false) : normal (.ofList cs) = cs := by
  rw [normal, trim_eq_self (by simpa using first) (by simpa using last),
    LawfulUnicode.toLowercase_eq_self (by simpa using lower), String.toList_ofList]

theorem getLast?_normal {c : Char} (h : c ∈ (normal a).getLast?) : isWhitespace c = false := by
  rw [normal, ← LawfulUnicode.trim_toLowercase] at h
  exact getLast?_trim h

theorem head?_normal {c : Char} (h : c ∈ (normal a).head?) : isWhitespace c = false := by
  rw [normal, ← LawfulUnicode.trim_toLowercase] at h
  exact head?_trim h

theorem normal_normal : normal (toLowercase (trim a)) = normal a := by
  have same := normal_ofList (fun _ => normal_isLower) (fun _ => head?_normal) fun _ => getLast?_normal (a := a)
  rwa [show String.ofList (normal a) = toLowercase (trim a) from String.ofList_toList] at same

-- The domain of a compared address is compared as it is.
theorem normal_domain {p : String × String} (hp : rsplitOnce (toLowercase (trim a)) = some p) :
    normal ("@" ++ p.2) = '@' :: p.2.toList := by
  have whole : normal a = p.1.toList ++ '@' :: p.2.toList := rsplitOnce_eq hp
  have eq : "@" ++ p.2 = .ofList ('@' :: p.2.toList) := by
    rw [← String.toList_inj]
    simp
  rw [eq]
  refine normal_ofList (fun c hc => ?_) (fun c hc => ?_) fun c hc => ?_
  · exact normal_isLower (whole ▸ List.mem_append_right _ hc)
  · cases hc
    decide
  · refine getLast?_normal (a := a) ?_
    rw [whole, List.getLast?_append, Option.mem_def.mp hc]
    rfl

-- Of a domain with another `@` in it, an address that only the plain members know.
theorem exists_unrecognised (h : ¬DomainsKept members) :
    ∃ a, Guide.isMember a members = true ∧ ¬Recognises members a := by
  simp only [DomainsKept, not_forall, not_exists, not_and, exists_prop] at h
  obtain ⟨m, hm, x, e, hn, last, other⟩ := h
  let long := (members.map fun m => (normal m).length).sum
  let a := List.replicate (long + 1) 'a' ++ normal m
  have ha : normal (.ofList a) = List.replicate (long + 1) 'a' ++ normal m := by
    refine normal_ofList (fun c hc => ?_) (fun c hc => ?_) fun c hc => ?_
    · obtain hc | hc := List.mem_append.mp hc
      · obtain rfl := List.eq_of_mem_replicate hc
        exact LawfulUnicode.isLower_ascii (by decide) (by decide)
      · exact normal_isLower hc
    · cases hc
      decide
    · rw [List.getLast?_append_of_ne_nil _ (by simp [hn])] at hc
      exact getLast?_normal hc
  refine ⟨.ofList a, isMember_iff.mpr ⟨m, hm, ?_⟩, ?_⟩
  · rw [ha, hn, List.head?_cons, if_pos rfl]
    exact List.suffix_append _ _
  · rintro ⟨m', hm', same | ⟨p, hp, domain⟩⟩
    · have le : (normal m').length ≤ long := List.single_le_sum (fun _ _ => Nat.zero_le _) _ (List.mem_map_of_mem hm')
      rw [same, ha, List.length_append, List.length_replicate] at le
      omega
    · rw [hn] at ha
      have parts : normal (.ofList a) = (List.replicate (long + 1) 'a' ++ '@' :: x) ++ '@' :: e := by simp [ha]
      rw [rsplitOnce_normal parts last] at hp
      obtain rfl := Option.some.inj hp
      exact other m' hm' (by simpa using domain)

end Recognised

end Kaluta.WritingGuide
