import Kaluta.Server.Rest

-- A rules server as the publisher of a mailbox meets it.
namespace Kaluta.Publish

abbrev Guide := String -- What the app would publish, its version and time aside.
abbrev Token := Nat
abbrev Salt  := Nat

-- The mailbox, the server it is published to, and what is not decided here: how a guide is written with its
-- addresses hashed, and its digest.
structure Config where
  server  : Server.Config
  address : String
  hashed  : Guide → Salt → String
  digest  : Guide → String

-- The server's file, and the mailbox's row in it with the publisher token that was made for it.
structure Host where
  db      : Server.Db := {}
  mailbox : Option (Server.MailboxId × Token) := none

-- A push on its way to the server.
structure Put where
  id      : Nat
  token   : Token
  push    : Server.Push
  ifMatch : Option Int

inductive Answer
  | registered (token : Token)
  | alreadyRegistered
  | stored
  | notCurrent (current : Option Int) -- 409, 412 and 428 with the current version
  | unauthorized
  | encryptionRequired
  | invalid                           -- any other 422
  | failed                            -- 500
  deriving DecidableEq

-- What a snapshot says, opened if it is sealed.
def text (json : String) (sealed : Option Server.SnapshotBox) : String :=
  match sealed with
  | some box => box.json
  | none     => json

namespace Host

def latest (h : Host) : Option Server.SnapshotRow :=
  h.mailbox.bind fun m => h.db.latestSnapshot m.1

def current (h : Host) : Option Int :=
  h.latest.map (·.version)

-- What the newest snapshot says.
def content (h : Host) : Option String :=
  h.latest.map fun row => text row.json row.sealed

variable (cfg : Config)

-- The first registration wins.
def register (h : Host) (token : Token) : Host × Answer :=
  match h.mailbox with
  | some _ => (h, .alreadyRegistered)
  | none   =>
    ({ db := (h.db.insertMailbox cfg.address).1, mailbox := some (h.db.mailboxes.nextRowid, token) }, .registered token)

def forget (h : Host) : Host :=
  match h.mailbox with
  | some (id, _) => { db := h.db.deleteMailbox id }
  | none         => h

def answer : Server.Pushed → Answer
  | .stored          => .stored
  | .downgrade       => .encryptionRequired
  | .mismatch c      => .notCurrent c
  | .needsIfMatch c  => .notCurrent (some c)
  | .notNewer c      => .notCurrent (some c)

-- An address that is not registered is answered as a wrong token is.
def put (h : Host) (p : Put) : Host × Answer :=
  match h.mailbox with
  | none             => (h, .unauthorized)
  | some (id, token) =>
    if token ≠ p.token then
      (h, .unauthorized)
    else match Server.checkPush cfg.server p.push cfg.address with
      | .error .encryptionRequired => (h, .encryptionRequired)
      | .error _                   => (h, .invalid)
      | .ok row                    =>
        match Server.publish cfg.server h.db id cfg.address p.push.sealed row p.ifMatch with
        | none              => (h, .failed)
        | some (db, pushed) => ({ h with db }, answer pushed)

-- The publisher token that the server takes.
def token (h : Host) : Option Token :=
  h.mailbox.map (·.2)

end Host

-- What the server makes of a push: either nothing, or it is the newest snapshot from then on.
inductive Put.Served (p : Put) (h : Host) : Host → Answer → Prop
  | refused : a ≠ .stored → (∀ t, a ≠ .registered t) →
      (∀ c, a = .notCurrent c → h.token = some p.token ∧ c = h.current) → Served p h h a
  | stored : h.token = some p.token → h'.mailbox = h.mailbox → h'.current = some p.push.version → 1 ≤ p.push.version →
      h'.content = some (text p.push.json (p.push.sealed.map (·.ciphertext))) →
      p.ifMatch.getD 0 = h.current.getD 0 → (∀ c, h.current = some c → c < p.push.version) →
      Served p h h' .stored

variable {cfg : Config} {h h' : Host} {p : Put}

theorem checkPush_row (hr : Server.checkPush c push address = .ok row) : row.version = push.version ∧ 1 ≤ row.version ∧
    text row.json row.sealed = text push.json (push.sealed.map (·.ciphertext)) ∧
    (push.sealed.isSome → row.sealed ≠ none) := by
  obtain ⟨hv, hr⟩ := Server.checkPush_eq_ok hr
  cases hs : push.sealed
  case none   =>
    simp only [hs, Server.plainPush] at hr
    split at hr
    case isTrue  => cases hr
    split at hr
    case isTrue  => cases hr
    case isFalse => cases hr; exact ⟨rfl, hv, rfl, nofun⟩
  case some s =>
    simp only [hs] at hr
    unfold Server.sealedPush at hr
    iterate 4
      split at hr
      case isTrue => cases hr
    split at hr
    case h_1 => cases hr
    iterate 2
      split at hr
      case isTrue => cases hr
    cases hr
    exact ⟨rfl, hv, rfl, nofun⟩

theorem Host.put_served (hp : h.put cfg p = (h', a)) : p.Served h h' a := by
  unfold put at hp
  split at hp
  case h_1 => cases hp; exact .refused nofun nofun nofun
  case h_2 id token hm =>
    split at hp
    case isTrue     => cases hp; exact .refused nofun nofun nofun
    case isFalse ht =>
      split at hp
      case h_1 => cases hp; exact .refused nofun nofun nofun
      case h_2 => cases hp; exact .refused nofun nofun nofun
      case h_3 row hr =>
        split at hp
        case h_1 => cases hp; exact .refused nofun nofun nofun
        case h_2 db pushed hd =>
          cases hp
          have hcurrent : h.current = (h.db.latestSnapshot id).map (·.version) := by rw [current, latest, hm]; rfl
          have htoken : h.token = some p.token := by rw [Host.token, hm]; exact congrArg some (not_not.mp ht)
          have answered := Server.publish_current hd
          rcases Server.publish_eq_some hd with ⟨rfl, hne⟩ | ⟨rfl, hs, hn⟩
          case inl =>
            cases pushed
            case stored     => exact absurd rfl hne
            case downgrade  => exact .refused nofun nofun nofun
            all_goals
              refine .refused nofun nofun fun c hc => ⟨htoken, ?_⟩
              cases hc
              exact answered.trans hcurrent.symm
          case inr =>
            obtain ⟨hv, hone, htext, hseal⟩ := checkPush_row hr
            have hlatest := Server.latestSnapshot_stored hs (fun s hl => (hn s hl).right) hseal
            have hnew : latest { h with db } = some { row with mailboxId := id } := by rw [latest, hm]; exact hlatest
            refine .stored htoken rfl ?_ (hv ▸ hone) ?_ (hcurrent ▸ answered) fun c hc => ?_
            · rw [current, hnew, ← hv]
              rfl
            · rw [content, hnew, ← htext]
              rfl
            · rw [hcurrent] at hc
              obtain ⟨s, hl, rfl⟩ := Option.map_eq_some_iff.mp hc
              exact hv ▸ (hn s hl).right

end Kaluta.Publish
