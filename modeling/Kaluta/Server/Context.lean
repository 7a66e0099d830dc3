import Mathlib
import Kaluta.Server.Rest
import Kaluta.Search.Printed
import Kaluta.Guide.Entry
import Kaluta.Lib.Fields

-- What every box of a rules server is bound to.
namespace Kaluta.Crypto

open Guide (Unicode toLowercase trim ascii)
open Server (validKeyId)
open Separated (joined joined_cons joined_inj cut_left)

-- The project's name from before, bound into every sealed snapshot, report and wrapped key on a server.
def LABEL_PREFIX : String :=
  "openagc-rules/v1/"

-- A label and fields, each ended by a zero byte.
def context (label : String) (fields : List String) : ByteArray :=
  fields.foldl (fun out f => out.push 0 ++ f.toUTF8) (LABEL_PREFIX ++ label).toUTF8

def agentKeyForAppContext (agentId : String) : ByteArray :=
  context "agent-key-for-app" [agentId]

section Addresses

variable [Unicode]

def snapshotAd (address : String) (version : Int64) (keyId : String) (schemaVersion : Option UInt32) : ByteArray :=
  let address := toLowercase (trim address)
  match schemaVersion with
  | some schema => context "snapshot/2" [address, toString version, keyId, toString schema]
  | none        => context "snapshot" [address, toString version, keyId]

def reportContext (address agentId : String) : ByteArray :=
  context "report" [toLowercase (trim address), agentId]

end Addresses

-- A key's id as a server takes it.
abbrev KeyId := { k : String // validKeyId k }

-- What the cipher's crate promises: a box opens only with the data that it was bound to.
structure Aead (Key Nonce Ciphertext : Type) where
  encrypt : Key → Nonce → List UInt8 → ByteArray → Ciphertext
  decrypt : Key → Nonce → Ciphertext → ByteArray → Option (List UInt8)
  bound {key key' : Key} {nonce nonce' : Nonce} {msg msg' : List UInt8} {aad aad' : ByteArray} :
    decrypt key' nonce' (encrypt key nonce msg aad) aad' = some msg' → aad' = aad

namespace Aead

variable {Key Nonce Ciphertext : Type} (aead : Aead Key Nonce Ciphertext)

-- `seal`
def sealed (key : Key) (nonce : Nonce) (plaintext : List UInt8) (ad : ByteArray) : Nonce × Ciphertext :=
  (nonce, aead.encrypt key nonce plaintext ad)

-- `open`
def opened (key : Key) (sealed : Nonce × Ciphertext) (ad : ByteArray) : Option (List UInt8) :=
  aead.decrypt key sealed.1 sealed.2 ad

end Aead

-- `is_control`
def isControl (c : Char) : Bool :=
  c.toNat < 32 || (127 ≤ c.toNat && c.toNat < 160)

section Mailboxes

variable [Unicode]

-- A mailbox's address as a server stores it.
def normalizeAddress (s : String) : Option String :=
  let a := toLowercase (trim s)
  match splitOnce '@' a.toList with
  | none                => none
  | some (user, domain) =>
    let bad (c : Char) := isWhitespace c || isControl c || "/?#@\\\"<>,;".toList.contains c
    if 3 ≤ a.utf8ByteSize ∧ a.utf8ByteSize ≤ 254 ∧ user ≠ [] ∧ domain ≠ [] ∧ !user.any bad ∧ !domain.any bad then
      some a
    else none

-- An address that a server answers for: every request for a mailbox is refused unless it normalizes.
abbrev Mailbox := { address : String // (normalizeAddress address).isSome }

-- What a box is made for, as the callers have it. Ids of agents are any texts: the app reads them from a server.
inductive Purpose
  | snapshot (address : String) (version : Int64) (keyId : KeyId) (schemaVersion : Option UInt32)
  | agentKey (agentId : String)
  | snapshotKey (agentId : String) (keyId : KeyId)
  | agentKeyForApp (agentId : String)
  | report (mailbox : Mailbox) (agentId : String)

namespace Purpose

def bytes : Purpose → ByteArray
  | snapshot address version keyId schemaVersion => snapshotAd address version keyId schemaVersion
  | agentKey agentId                             => context "agent-key" [agentId]
  | snapshotKey agentId keyId                    => context "snapshot-key" [agentId, keyId]
  | agentKeyForApp agentId                       => agentKeyForAppContext agentId
  | report mailbox agentId                       => reportContext mailbox agentId

def label : Purpose → String
  | snapshot _ _ _ (some _) => "snapshot/2"
  | snapshot _ _ _ none     => "snapshot"
  | agentKey _              => "agent-key"
  | snapshotKey _ _         => "snapshot-key"
  | agentKeyForApp _        => "agent-key-for-app"
  | report _ _              => "report"

def first : Purpose → String
  | snapshot address _ _ _ => toLowercase (trim address)
  | agentKey agentId       => agentId
  | snapshotKey agentId _  => agentId
  | agentKeyForApp agentId => agentId
  | report mailbox _       => toLowercase (trim mailbox)

def more : Purpose → List String
  | snapshot _ version keyId (some schema) => [toString version, keyId, toString schema]
  | snapshot _ version keyId none          => [toString version, keyId]
  | agentKey _                             => []
  | snapshotKey _ keyId                    => [keyId]
  | agentKeyForApp _                       => []
  | report _ agentId                       => [agentId]

def fields (p : Purpose) : List String :=
  p.first :: p.more

end Purpose

end Mailboxes

section Bytes

variable {label label' : String} {fields fields' : List String}

theorem push_zero (out : ByteArray) (f : String) :
    out.push 0 ++ f.toUTF8 = out ++ (String.singleton '\x00' ++ f).toByteArray := by
  have zero : out.push 0 = out ++ (String.singleton '\x00').toByteArray := by
    have byte : (String.singleton '\x00').toByteArray = ⟨#[0]⟩ := by decide
    rw [byte]
    exact ByteArray.ext (by simp)
  rw [zero, String.toByteArray_append, ByteArray.append_assoc]
  rfl

-- The bytes are those of a text.
theorem context_eq (label : String) (fields : List String) : context label fields =
    (String.ofList (joined '\x00' (LABEL_PREFIX ++ label).toList (fields.map String.toList))).toByteArray := by
  have from_ (s : String) : fields.foldl (fun out f => out.push 0 ++ f.toUTF8) s.toByteArray =
      (String.ofList (joined '\x00' s.toList (fields.map String.toList))).toByteArray := by
    induction fields generalizing s
    case nil =>
      rw [List.map_nil, joined, List.flatMap_nil, List.append_nil, String.ofList_toList]
      rfl
    case cons f fs ih =>
      rw [List.foldl_cons, push_zero, ← String.toByteArray_append, ih, List.map_cons, joined, joined, List.flatMap_cons]
      simp
  exact from_ _

theorem context_inj : context label fields = context label' fields' ↔
    joined '\x00' label.toList (fields.map String.toList) = joined '\x00' label'.toList (fields'.map String.toList) := by
  rw [context_eq, context_eq, String.toByteArray_inj, String.ofList_inj, String.toList_append, String.toList_append,
    joined, joined, List.append_assoc, List.append_assoc, List.append_right_inj]
  rfl

end Bytes

-- What is left out of the numbers and ids of a box.
section Free

theorem free_of_digits {cs : List Char} (h : ∀ c ∈ cs, c.isDigit) : '\x00' ∉ cs :=
  fun mem => absurd (h _ mem) (by decide)

theorem free_nat (n : Nat) : '\x00' ∉ (toString n).toList := by
  rw [Nat.toString_eq_repr, Nat.toList_repr]
  exact free_of_digits fun c => Nat.isDigit_of_mem_toDigits (by decide) (by decide)

theorem free_int (n : Int) : '\x00' ∉ (toString n).toList := by
  cases n
  case ofNat n   => exact free_nat n
  case negSucc n =>
    have minus : (toString (Int.negSucc n)).toList = '-' :: (toString (n + 1)).toList := by
      rw [Int.toString_eq_repr, Int.repr_eq_if, if_neg (by simp)]
      simp
    rw [minus]
    exact List.not_mem_cons_of_ne_of_not_mem (by decide) (free_nat (n + 1))

theorem free_keyId (k : KeyId) : '\x00' ∉ k.val.toList := by
  intro mem
  have valid := k.property
  simp only [validKeyId, Bool.and_eq_true, List.all_eq_true] at valid
  exact absurd (valid.right _ mem) (by decide)

theorem free_mailbox [Unicode] (m : Mailbox) : '\x00' ∉ (toLowercase (trim m.val)).toList := by
  have valid := m.property
  rw [normalizeAddress] at valid
  split at valid
  case h_1 => cases valid
  case h_2 user domain cut =>
    dsimp only at valid
    split at valid
    case isFalse => cases valid
    case isTrue ok =>
      have ⟨_, _, _, _, user, domain⟩ := ok
      rw [splitOnce_eq cut]
      intro mem
      rcases List.mem_append.mp mem with mem | mem
      · simp only [Bool.not_eq_true', List.any_eq_false] at user
        exact user _ mem (by decide)
      · rcases List.mem_cons.mp mem with zero | mem
        · exact absurd zero (by decide)
        · simp only [Bool.not_eq_true', List.any_eq_false] at domain
          exact domain _ mem (by decide)

end Free

namespace Purpose

variable [Unicode] {p p' : Purpose}

theorem bytes_eq (p : Purpose) : p.bytes = context p.label p.fields := by
  cases p
  case snapshot address version keyId schemaVersion =>
    cases schemaVersion
    case none   => rfl
    case some s => rfl
  all_goals rfl

theorem free_label (p : Purpose) : '\x00' ∉ p.label.toList := by
  have known : p.label ∈ ["snapshot/2", "snapshot", "agent-key", "snapshot-key", "agent-key-for-app", "report"] := by
    cases p
    case snapshot address version keyId schemaVersion => cases schemaVersion <;> simp [label]
    all_goals simp [label]
  have all : ["snapshot/2", "snapshot", "agent-key", "snapshot-key", "agent-key-for-app", "report"].all
      fun l => !l.toList.contains '\x00' := by decide
  have free := List.all_eq_true.mp all _ known
  simpa using free

-- A label tells how many fields there are.
def width (label : String) : Nat :=
  if label = "snapshot/2" then 3 else if label = "snapshot" then 2 else
    if label = "snapshot-key" ∨ label = "report" then 1 else 0

theorem length_more (p : Purpose) : p.more.length = width p.label := by
  cases p
  case snapshot address version keyId schemaVersion =>
    cases schemaVersion
    case none   => rfl
    case some s => rfl
  all_goals rfl

-- A report's first field is free of zeros, and so are all other boxes' further fields.
theorem free_first (h : p.label = "report") : '\x00' ∉ p.first.toList := by
  cases p
  case report mailbox agentId => exact free_mailbox mailbox
  case snapshot address version keyId schemaVersion => cases schemaVersion <;> simp [label] at h
  all_goals simp [label] at h

theorem free_more (h : p.label ≠ "report") : ∀ f ∈ p.more, '\x00' ∉ f.toList := by
  cases p
  case snapshot address version keyId schemaVersion =>
    have number : '\x00' ∉ (toString version).toList := free_int version.toInt
    cases schemaVersion
    case none =>
      rw [more, List.forall_mem_cons, List.forall_mem_singleton]
      exact ⟨number, free_keyId keyId⟩
    case some schema =>
      rw [more, List.forall_mem_cons, List.forall_mem_cons, List.forall_mem_singleton]
      exact ⟨number, free_keyId keyId, free_nat schema.toNat⟩
  case snapshotKey agentId keyId => exact List.forall_mem_singleton.mpr (free_keyId keyId)
  case report => exact absurd rfl h
  case agentKey => exact List.forall_mem_nil _
  case agentKeyForApp => exact List.forall_mem_nil _

theorem bytes_inj (p p' : Purpose) : p.bytes = p'.bytes ↔ p.label = p'.label ∧ p.fields = p'.fields := by
  rw [bytes_eq, bytes_eq]
  refine ⟨fun h => ?_, fun ⟨label, fields⟩ => label ▸ fields ▸ rfl⟩
  rw [context_inj, fields, fields, List.map_cons, List.map_cons, joined_cons, joined_cons] at h
  have ⟨same, rest⟩ := cut_left p.free_label p'.free_label h
  have label : p.label = p'.label := String.toList_inj.mp same
  have length : p.more.length = p'.more.length := by rw [length_more, length_more, label]
  refine ⟨label, ?_⟩
  by_cases report : p.label = "report"
  case neg =>
    have free {p : Purpose} (other : p.label ≠ "report") : ∀ f ∈ p.more.map String.toList, '\x00' ∉ f := by
      intro f mem
      have ⟨s, hs, eq⟩ := List.mem_map.mp mem
      exact eq ▸ free_more other s hs
    have ⟨first, more⟩ := joined_inj rest (by simpa using length) (free report) (free (label ▸ report))
    rw [fields, fields, String.toList_inj.mp first, List.map_injective_iff.mpr (fun _ _ => String.toList_inj.mp) more]
  case pos =>
    have one {p : Purpose} (report : p.label = "report") : ∃ f, p.more = [f] :=
      List.length_eq_one_iff.mp (by rw [length_more, report]; rfl)
    have ⟨f, hf⟩ := one report
    have ⟨f', hf'⟩ := one (label ▸ report)
    rw [hf, hf', List.map_singleton, List.map_singleton, joined_cons, joined_cons] at rest
    have ⟨first, last⟩ := cut_left (free_first report) (free_first (label ▸ report)) rest
    rw [joined, joined, List.flatMap_nil, List.append_nil, List.append_nil] at last
    rw [fields, fields, hf, hf', String.toList_inj.mp first, String.toList_inj.mp last]

end Purpose

-- A box of one label and fields never opens for others.
theorem Purpose.bytes_separate [Unicode] (p p' : Purpose) :
    (p.bytes = p'.bytes ↔ p.label = p'.label ∧ p.fields = p'.fields) ∧
    ∀ {Key Nonce Ciphertext : Type} (aead : Aead Key Nonce Ciphertext) (key key' : Key) (nonce : Nonce) (msg : List UInt8),
      (aead.opened key' (aead.sealed key nonce msg p.bytes) p'.bytes).isSome → p.label = p'.label ∧ p.fields = p'.fields := by
  refine ⟨p.bytes_inj p', fun aead key key' nonce msg opened => ?_⟩
  have ⟨msg', eq⟩ := Option.isSome_iff_exists.mp opened
  exact (p.bytes_inj p').mp (aead.bound eq).symm

section Wrapped

attribute [local instance] ascii

-- Boxes that remember what they were bound to.
def remembering : Aead Nat Nat (Nat × List UInt8 × ByteArray) where
  encrypt key _ msg aad        := (key, msg, aad)
  decrypt key _ ciphertext aad := if ciphertext.1 = key ∧ ciphertext.2.2 = aad then some ciphertext.2.1 else none
  bound opened := by
    split at opened
    case isTrue same => exact same.right.symm
    case isFalse     => cases opened

-- A key wrapped for an agent is not opened as another agent's.
theorem wrapped_separate :
    let wrap (agentId : String) : Purpose := .snapshotKey agentId ⟨"k1", by decide⟩
    ¬(remembering.opened 7 (remembering.sealed 7 0 [1, 2] (wrap "0123456789abcdef").bytes) (wrap "fedcba9876543210").bytes).isSome := by
  intro wrap opened
  have same := ((wrap "0123456789abcdef").bytes_separate (wrap "fedcba9876543210")).right remembering 7 7 0 [1, 2] opened
  exact absurd same.right (by decide)

end Wrapped

end Kaluta.Crypto
