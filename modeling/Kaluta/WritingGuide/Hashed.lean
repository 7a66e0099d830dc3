import Kaluta.WritingGuide.Recognised

-- When the hashed snapshot of a guide is matched as the guide itself.
namespace Kaluta.WritingGuide

open Guide (Unicode Scope toLowercase trim eqIgnoreAsciiCase isMember ascii)
open Agents (rsplitOnce)

section Hashes

theorem hex_cons (b : UInt8) (bs : List UInt8) :
    hex (b :: bs) = Nat.digitChar (b.toNat / 16) :: Nat.digitChar (b.toNat % 16) :: hex bs := rfl

theorem toLower_digitChar : ∀ d < 16, (Nat.digitChar d).toLower = Nat.digitChar d := by
  decide

theorem digitChar_inj : ∀ d < 16, ∀ d' < 16, Nat.digitChar d = Nat.digitChar d' → d = d' := by
  decide

theorem toLower_hex (bs : List UInt8) : (hex bs).map Char.toLower = hex bs := by
  induction bs
  case nil => rfl
  case cons b bs ih =>
    have := b.toNat_lt
    rw [hex_cons, List.map_cons, List.map_cons, ih, toLower_digitChar _ (by omega), toLower_digitChar _ (by omega)]

theorem hex_injective : Function.Injective hex := by
  intro bs
  induction bs
  case nil =>
    intro bs' eq
    cases bs'
    case nil  => rfl
    case cons => cases eq
  case cons b bs ih =>
    intro bs' eq
    cases bs'
    case nil          => cases eq
    case cons b' bs' =>
      have := b.toNat_lt
      have := b'.toNat_lt
      rw [hex_cons, hex_cons, List.cons.injEq, List.cons.injEq] at eq
      have high := digitChar_inj _ (by omega) _ (by omega) eq.left
      have low := digitChar_inj _ (by omega) _ (by omega) eq.right.left
      rw [ih eq.right.right, UInt8.toNat_inj.mp (by omega : b.toNat = b'.toNat)]

theorem bytes_injective : Function.Injective bytes := fun _ _ eq =>
  String.toByteArray_inj.mp (ByteArray.ext (Array.toList_inj.mp eq))

variable [Unicode] [Sha256] {salt a b : String} {members : List String}

theorem eqIgnoreAsciiCase_hashAddress :
    eqIgnoreAsciiCase (hashAddress salt a) (hashAddress salt b) = true ↔ hashAddress salt a = hashAddress salt b := by
  rw [eqIgnoreAsciiCase, decide_eq_true_iff, hashAddress, hashAddress, String.toList_ofList, String.toList_ofList,
    toLower_hex, toLower_hex, ← String.ofList_inj]

-- No two addresses that are compared as different have one hash.
def NoCollisions (salt : String) : Prop :=
  ∀ a b, hashAddress salt a = hashAddress salt b → normal a = normal b

theorem NoCollisions.hashAddress_eq (distinct : NoCollisions salt) :
    hashAddress salt a = hashAddress salt b ↔ normal a = normal b := by
  refine ⟨distinct a b, fun eq => ?_⟩
  rw [hashAddress, hashAddress, String.toList_inj.mp eq]

theorem matches_hashed_iff [LawfulUnicode] (distinct : NoCollisions salt) {groups : AudienceGroups}
    (hashed : groups.salt = some salt) :
    groups.matches a (members.map (hashAddress salt)) = true ↔ Recognises members a := by
  simp only [AudienceGroups.matches, hashed, List.any_map, List.any_eq_true, Function.comp_apply]
  refine exists_congr fun m => and_congr_right fun _ => ?_
  simp only [List.mem_cons, exists_eq_or_imp, eqIgnoreAsciiCase_hashAddress, distinct.hashAddress_eq, normal_normal]
  refine or_congr_right ?_
  simp only [Option.mem_toList, Option.mem_def, Option.map_eq_some_iff]
  constructor
  · rintro ⟨_, ⟨p, hp, rfl⟩, eq⟩
    rw [eqIgnoreAsciiCase_hashAddress, distinct.hashAddress_eq, normal_domain hp] at eq
    exact ⟨p, hp, eq⟩
  · rintro ⟨p, hp, eq⟩
    refine ⟨_, ⟨p, hp, rfl⟩, ?_⟩
    rw [eqIgnoreAsciiCase_hashAddress, distinct.hashAddress_eq, normal_domain hp, eq]

end Hashes

section Publishing

variable [Unicode] [Sha256] {salt : String} {s : Snapshot} {target : Target}

-- For every message, the hashed snapshot gives the guide's own audiences, entries and findings.
def Alike [Alphanumeric] (salt : String) (s : Snapshot) : Prop :=
  ∀ target, target.audiencesIn (s.hashed salt).audiences = target.audiencesIn s.audiences ∧
    (s.hashed salt).applying target = (s.applying target).map (.hashed salt) ∧
    ∀ text, (s.hashed salt).check target text = s.check target text

-- Who of the recipients is known by the plain members, and who by the hashed.
def anyMember (recipients members : List String) : Bool :=
  recipients.any (isMember · members)

def anyRecognised (salt : String) (recipients members : List String) : Bool :=
  recipients.any (({ salt := some salt } : AudienceGroups).matches · (members.map (hashAddress salt)))

theorem hashed_eq (plain : s.audiences.salt = none) : s.hashed salt =
    { entries := s.entries.map (.hashed salt)
      audiences :=
        { salt := some salt
          groups := s.audiences.groups.map fun g => { g with members := g.members.map (hashAddress salt) } } } := by
  rw [Snapshot.hashed, AudienceGroups.hashed, plain]
  rfl

theorem audiencesOf_plain {groups : AudienceGroups} (plain : groups.salt = none) (recipients : List String) :
    groups.audiencesOf recipients =
      (groups.groups.filter fun g => anyMember recipients g.members).map (·.name) := by
  simp only [AudienceGroups.audiencesOf, AudienceGroups.matches, plain, anyMember]

theorem audiencesOf_hashed (plain : s.audiences.salt = none) (recipients : List String) :
    (s.hashed salt).audiences.audiencesOf recipients =
      (s.audiences.groups.filter fun g => anyRecognised salt recipients g.members).map (·.name) := by
  rw [hashed_eq plain, AudienceGroups.audiencesOf, List.filter_map, List.map_map]
  rfl

-- What of a scope does not depend on the people.
def narrowed (scope : Scope) (target : Target) (audiences : List String) : Bool :=
  (scope.groups = [] ∨ scope.groups.any fun g => audiences.any (eqIgnoreAsciiCase · g)) ∧
    (scope.messageTypes = [] ∨ target.messageType.any (· ∈ scope.messageTypes))

theorem appliesIn_eq (groups : AudienceGroups) (scope : Scope) (audiences : List String) :
    appliesIn scope target audiences groups =
      ((scope.people = [] || target.recipients.any (groups.matches · scope.people)) && narrowed scope target audiences) := by
  simp only [appliesIn, narrowed, Bool.decide_and, Bool.decide_or, Bool.decide_eq_true]

theorem appliesIn_plain {groups : AudienceGroups} (plain : groups.salt = none) (scope : Scope) (audiences : List String) :
    appliesIn scope target audiences groups =
      ((scope.people = [] || anyMember target.recipients scope.people) && narrowed scope target audiences) := by
  simp only [appliesIn_eq, AudienceGroups.matches, plain, anyMember]

theorem appliesIn_hashed (plain : s.audiences.salt = none) (e : Entry) (audiences : List String) :
    appliesIn (e.hashed salt).scope target audiences (s.hashed salt).audiences =
      ((e.scope.people = [] || anyRecognised salt target.recipients e.scope.people) &&
        narrowed e.scope target audiences) := by
  rw [hashed_eq plain, appliesIn_eq, Entry.hashed]
  simp only [List.map_eq_nil_iff]
  rfl

omit [Unicode] [Sha256] in
-- A list that keeps as much with a stricter test keeps the same.
theorem filter_eq_filter {α : Type} {l : List α} {p q : α → Bool} (le : ∀ x, p x = true → q x = true)
    (length : (l.filter p).length = (l.filter q).length) : ∀ x ∈ l, q x = true → p x = true := by
  have same := (List.monotone_filter_right l le).eq_of_length length
  intro x hx hq
  exact (List.mem_filter.mp (same ▸ List.mem_filter.mpr ⟨hx, hq⟩)).right

omit [Unicode] [Sha256] in
-- A message that no scope but the people's is against.
theorem narrowed_self (scope : Scope) (recipients : List String) :
    narrowed scope { recipients, messageType := scope.messageTypes.head?, audiences := some scope.groups } scope.groups =
      true := by
  rw [narrowed, Bool.decide_and, Bool.and_eq_true, decide_eq_true_eq, decide_eq_true_eq]
  constructor
  · cases h : scope.groups
    case nil       => exact .inl rfl
    case cons g gs => simp [eqIgnoreAsciiCase]
  · cases h : scope.messageTypes
    case nil       => exact .inl rfl
    case cons t ts => simp

variable [LawfulUnicode]

theorem anyMember_of_recognised (distinct : NoCollisions salt) {recipients members : List String}
    (h : anyRecognised salt recipients members = true) : anyMember recipients members = true := by
  obtain ⟨r, hr, recognised⟩ := List.any_eq_true.mp h
  exact List.any_eq_true.mpr ⟨r, hr, ((matches_hashed_iff distinct rfl).mp recognised).isMember⟩

theorem DomainsKept.anyRecognised_eq (distinct : NoCollisions salt) {members : List String} (kept : DomainsKept members)
    (recipients : List String) : anyRecognised salt recipients members = anyMember recipients members := by
  refine Bool.eq_iff_iff.mpr ⟨anyMember_of_recognised distinct, fun h => ?_⟩
  obtain ⟨r, hr, belongs⟩ := List.any_eq_true.mp h
  exact List.any_eq_true.mpr ⟨r, hr, (matches_hashed_iff distinct rfl).mpr (kept.recognises belongs)⟩

variable [Alphanumeric]

theorem alike_of_domainsKept (plain : s.audiences.salt = none) (distinct : NoCollisions salt)
    (kept : ∀ members ∈ s.addresses, DomainsKept members) : Alike salt s := by
  intro target
  have audiences : target.audiencesIn (s.hashed salt).audiences = target.audiencesIn s.audiences := by
    have same : ∀ g ∈ s.audiences.groups,
        anyRecognised salt target.recipients g.members = anyMember target.recipients g.members := fun g hg =>
      (kept _ (List.mem_append_left _ (List.mem_map_of_mem hg))).anyRecognised_eq distinct _
    rw [Target.audiencesIn, Target.audiencesIn, audiencesOf_hashed plain, audiencesOf_plain plain, List.filter_congr same]
  have applying : (s.hashed salt).applying target = (s.applying target).map (.hashed salt) := by
    have entries : (s.hashed salt).entries = s.entries.map (.hashed salt) := by rw [hashed_eq plain]
    rw [Snapshot.applying, Snapshot.applying, entries, List.filter_map, audiences]
    refine congrArg _ (List.filter_congr fun e he => ?_)
    have same := (kept _ (List.mem_append_right _ (List.mem_map_of_mem he))).anyRecognised_eq distinct target.recipients
    rw [Function.comp_apply, appliesIn_hashed plain, appliesIn_plain plain, same]
  refine ⟨audiences, applying, fun text => ?_⟩
  rw [Snapshot.check, Snapshot.check, applying, List.filter_map, List.filterMap_map]
  rfl

theorem Alike.domainsKept (alike : Alike salt s) (plain : s.audiences.salt = none) (distinct : NoCollisions salt) :
    ∀ members ∈ s.addresses, DomainsKept members := by
  intro members hm
  by_contra lost
  obtain ⟨a, belongs, unknown⟩ := exists_unrecognised lost
  have is : anyMember [a] members = true := List.any_eq_true.mpr ⟨a, List.mem_singleton_self a, belongs⟩
  have isNot : ¬anyRecognised salt [a] members = true := fun h => by
    obtain ⟨r, hr, recognised⟩ := List.any_eq_true.mp h
    obtain rfl := List.mem_singleton.mp hr
    exact unknown ((matches_hashed_iff distinct rfl).mp recognised)
  obtain hm | hm := List.mem_append.mp hm
  · obtain ⟨g, hg, rfl⟩ := List.mem_map.mp hm
    have audiences := (alike { recipients := [a] }).left
    simp only [Target.audiencesIn, Option.getD_none, audiencesOf_hashed plain, audiencesOf_plain plain] at audiences
    have length := congrArg List.length audiences
    rw [List.length_map, List.length_map] at length
    exact isNot (filter_eq_filter (fun g => anyMember_of_recognised distinct) length g hg is)
  · obtain ⟨e, he, rfl⟩ := List.mem_map.mp hm
    -- A message that is only narrowed by the entry's people.
    let target : Target := { recipients := [a], messageType := e.scope.messageTypes.head?, audiences := some e.scope.groups }
    have narrow : narrowed e.scope target e.scope.groups = true := narrowed_self e.scope [a]
    have entries : (s.hashed salt).entries = s.entries.map (.hashed salt) := by rw [hashed_eq plain]
    have length := congrArg List.length (alike target).right.left
    rw [Snapshot.applying, Snapshot.applying, entries, List.filter_map, List.length_map, List.length_map] at length
    have applies := filter_eq_filter (fun e h => ?_) length e he ?_
    · rw [Function.comp_apply, appliesIn_hashed plain, Bool.and_eq_true, Bool.or_eq_true, decide_eq_true_eq] at applies
      obtain everyone | known := applies.left
      · exact lost (everyone ▸ fun _ h => absurd h List.not_mem_nil)
      · exact isNot known
    · rw [Function.comp_apply, appliesIn_hashed plain, Bool.and_eq_true, Bool.or_eq_true] at h
      rw [appliesIn_plain plain, Bool.and_eq_true, Bool.or_eq_true]
      exact ⟨h.left.imp_right (anyMember_of_recognised distinct), h.right⟩
    · rw [appliesIn_plain plain, Bool.and_eq_true, Bool.or_eq_true]
      exact ⟨.inr is, narrow⟩

-- The hashed snapshot is matched as the guide that it was made from, exactly when each domain with another `@` in it
-- stands beside what follows its last `@`.
theorem alike_iff (plain : s.audiences.salt = none) (distinct : NoCollisions salt) :
    Alike salt s ↔ ∀ members ∈ s.addresses, DomainsKept members :=
  ⟨fun alike => alike.domainsKept plain distinct, alike_of_domainsKept plain distinct⟩

end Publishing

-- A digest that is the text itself.
abbrev undigested : Sha256 where
  digest := id

abbrev asciiLetters : Alphanumeric where
  isAlphanumeric := Char.isAlphanum

theorem noCollisions_undigested (salt : String) : @NoCollisions ascii undigested salt := by
  intro a b eq
  have same := List.append_cancel_left (hex_injective (String.ofList_injective eq))
  exact congrArg String.toList (bytes_injective (List.cons.inj same).right)

def customers : Snapshot where
  entries := [
    { id := 1, category := "B1", kind := .rule, statement := "Never circle back."
      scope := { people := [" VC@fund.com"] }, check := some { kind := .bannedPhrase, value := "circle back" } }]
  audiences := { groups := [{ name := "Customers", members := ["@Acme.com", "bea@globex.com"] }] }

-- No member has an `@` behind its first character, or is no domain.
theorem domainsKept_of_plain [Unicode] {members : List String}
    (h : ∀ m ∈ members, (normal m).head? = some '@' → '@' ∉ (normal m).tail) : DomainsKept members := by
  intro m hm x e eq _
  have := h m hm (by rw [eq]; rfl)
  rw [eq] at this
  exact absurd (List.mem_append_right x List.mem_cons_self) this

theorem alike_customers : @Alike ascii undigested asciiLetters "salt" customers := by
  let _ : Unicode := ascii
  let _ : Sha256 := undigested
  let _ : Alphanumeric := asciiLetters
  have plain : ∀ members ∈ customers.addresses, ∀ m ∈ members, (@normal ascii m).head? = some '@' → '@' ∉ (@normal ascii m).tail := by
    decide
  exact (alike_iff rfl (noCollisions_undigested "salt")).mpr fun members hm => domainsKept_of_plain (plain members hm)

-- A domain with another `@` in it.
def partners : AudienceGroups where
  groups := [{ name := "Partners", members := ["@x@y.com"] }]

theorem partners_unknown : @NoCollisions ascii undigested "salt" ∧
    @AudienceGroups.audiencesOf ascii undigested partners ["ann@x@y.com"] = ["Partners"] ∧
    @AudienceGroups.audiencesOf ascii undigested (@AudienceGroups.hashed ascii undigested partners "salt") ["ann@x@y.com"] = [] := by
  let _ : Unicode := ascii
  let _ : Sha256 := undigested
  have distinct := noCollisions_undigested "salt"
  have plain : (partners.hashed "salt").audiencesOf ["ann@x@y.com"] = _ := audiencesOf_hashed (s := { audiences := partners }) rfl _
  refine ⟨distinct, by decide, plain.trans ?_⟩
  have domain : rsplitOnce (toLowercase (trim "ann@x@y.com")) = some ("ann@x", "y.com") := by decide
  have unknown : ¬Recognises ["@x@y.com"] "ann@x@y.com" := by
    rintro ⟨m, hm, same | ⟨p, hp, eq⟩⟩ <;> obtain rfl := List.mem_singleton.mp hm
    · exact absurd same (by decide)
    · cases domain.symm.trans hp
      exact absurd eq (by decide)
  have not_any : ¬anyRecognised "salt" ["ann@x@y.com"] ["@x@y.com"] = true := fun h => by
    obtain ⟨r, hr, known⟩ := List.any_eq_true.mp h
    obtain rfl := List.mem_singleton.mp hr
    exact unknown ((matches_hashed_iff distinct rfl).mp known)
  have none : partners.groups.filter (fun g => anyRecognised "salt" ["ann@x@y.com"] g.members) = [] := by
    rw [List.filter_eq_nil_iff]
    intro g hg
    obtain rfl := List.mem_singleton.mp hg
    exact not_any
  exact congrArg (List.map (·.name)) none

end Kaluta.WritingGuide
