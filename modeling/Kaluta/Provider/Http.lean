import Mathlib.Data.List.Basic
import Mathlib.Data.List.Infix

-- A provider's requests: what answers an HTTP request meets, and how often it is made.
namespace Kaluta.Provider

inductive ProviderError
  | unauthorized
  | cursorExpired
  | notFound (message : String)
  | rateLimited (retryAfter : Option Nat)
  | network
  | server (status : Nat) (message : String)
  | decode
  | invalid (message : String)
  | forbidden (message : String)
  | unavailable (message : String)
  deriving DecidableEq

-- Worth retrying later.
def ProviderError.isTransient : ProviderError → Bool
  | rateLimited _ | network | server _ _ | decode => true
  | _                                             => false

-- AgentMail's error format.
structure ErrorBody where
  code                 : String
  words                : String
  mentionsVerification : Bool := false
  deriving DecidableEq

-- What can be read of a response's body.
structure Body where
  decodes   : Bool := true -- As the answer to the request, when that succeeded.
  rejected  : List String := [] -- Recipients, in Primitive's answer to a send.
  message   : String := ""
  reasons   : List String := []
  errorBody : Option ErrorBody := none
  deriving DecidableEq

-- What becomes of one attempt; the server may have taken a request whose answer is lost or replaced by a 5xx.
inductive Answer
  | noToken (error : ProviderError)
  | lost (taken : Bool)
  | response (status : Nat) (retryAfter : Option Nat) (body : Body) (taken : Bool)
  deriving DecidableEq

def isSuccess (status : Nat) : Bool :=
  200 ≤ status ∧ status < 300

def Answer.takes : Answer → Bool
  | noToken _               => false
  | lost taken              => taken
  | response status _ _ taken => isSuccess status || (500 ≤ status && taken)

-- A server that takes requests: it drops one whose idempotency key it has seen.
structure Server where
  seen : List String := []
  out  : Nat := 0 -- How often messages were put out.

def Server.post (s : Server) (key : Option String) (a : Answer) : Server :=
  if a.takes then
    match key with
    | none   => { s with out := s.out + 1 }
    | some k => if k ∈ s.seen then s else { seen := k :: s.seen, out := s.out + 1 }
  else s

structure RetryPolicy where
  maxAttempts : Nat := 5

abbrev ErrorHook := Nat → Body → Option ProviderError

-- Turns a response that is no success into an error.
def classify (hook : ErrorHook) (status : Nat) (retryAfter : Option Nat) (body : Body) : ProviderError :=
  match (if status = 429 then none else hook status body) with
  | some e => e
  | none   =>
    if status = 429 then .rateLimited retryAfter
    else if status = 403 then
      if body.reasons.any fun r => "RateLimitExceeded".toList <:+: r.toList || r = "rateLimitExceeded" then
        .rateLimited (retryAfter.orElse fun _ => some 60)
      else .forbidden body.message
    else if status = 404 then .notFound body.message
    else if status = 410 ∧ "cursor_expired" ∈ body.reasons then .cursorExpired
    else if 500 ≤ status then .server status body.message
    else .invalid body.message

-- How far a call has come with the answers that it met.
inductive Outcome
  | waiting
  | failed (error : ProviderError)
  | ok (body : Body)
  deriving DecidableEq

structure HttpClient where
  retry : RetryPolicy := {}
  hook  : ErrorHook := fun _ _ => none

structure Run where
  outcome : Outcome
  rest    : List Answer := []
  server  : Server

-- Makes a request until an answer ends it: a rejected token is refreshed once, a failure that may pass is tried again.
def HttpClient.execute (http : HttpClient) (key : Option String) : Nat → Bool → List Answer → Server → Run
  | _      , _        , []        , server => { outcome := .waiting, server }
  | attempt, refreshed, a :: rest , server =>
    let after := server.post key a
    let again (error : ProviderError) : Run :=
      if ¬error.isTransient ∨ http.retry.maxAttempts ≤ attempt + 1 then { outcome := .failed error, rest, server := after }
      else http.execute key (attempt + 1) refreshed rest after
    match a with
    | .noToken e                         => { outcome := .failed e, rest, server := after }
    | .lost _                            => again .network
    | .response status retryAfter body _ =>
      if isSuccess status then { outcome := .ok body, rest, server := after }
      else if status = 401 then
        if refreshed then { outcome := .failed .unauthorized, rest, server := after }
        else http.execute key attempt true rest after
      else again (classify http.hook status retryAfter body)

-- Sends and decodes the answer.
def HttpClient.json (http : HttpClient) (key : Option String) (answers : List Answer) (server : Server) : Run :=
  let run := http.execute key 0 false answers server
  match run.outcome with
  | .ok body => if body.decodes then run else { run with outcome := .failed .decode }
  | _        => run

end Kaluta.Provider

-- `MailProvider::send` of each provider, and how often one call of it puts the message out.
namespace Kaluta.Provider

inductive Provider
  | gmail
  | agentMail
  | primitive
  deriving DecidableEq

-- A composed message as the providers read it: its idempotency key, the message it answers, and the request's body,
-- as a reply or as a message of its own.
structure Outgoing where
  key       : String
  inReplyTo : Option String := none
  body      : Bool → Except ProviderError Unit := fun _ => .ok ()

-- AgentMail's reading of an error response.
def agentmailError (status : Nat) (body : Body) : Option ProviderError :=
  body.errorBody.bind fun parsed =>
    if parsed.code = "message_rejected" ∧ parsed.mentionsVerification then some (.forbidden "sends only to its human")
    else if parsed.code = "missing_permission" ∧ parsed.mentionsVerification then some (.forbidden "not verified yet")
    else if parsed.code = "inbox_paused" then some (.forbidden "inbox paused")
    else if parsed.code = "resource_taken" then some (.invalid "username taken")
    else if parsed.code = "not_found" ∨ status = 404 then some (.notFound parsed.words)
    else if parsed.code = "conflict" then some (.rateLimited (some 2))
    else if parsed.code = "rate_limit_exceeded" then some (.rateLimited none)
    else if status = 413 then some (.invalid "too large")
    else if status = 403 then some (.forbidden parsed.words)
    else if 500 ≤ status then some (.server status parsed.words)
    else if 400 ≤ status then some (.invalid parsed.words)
    else none

def Run.fail (server : Server) (answers : List Answer) (error : ProviderError) : Run :=
  { outcome := .failed error, rest := answers, server }

-- Sends through AgentMail are never repeated by the client itself.
def postSend (key : String) (answers : List Answer) (server : Server) : Run :=
  HttpClient.json { retry := { maxAttempts := 1 }, hook := agentmailError } (some key) answers server

def gmailSend (retry : RetryPolicy) (answers : List Answer) (server : Server) : Run :=
  HttpClient.json { retry } none answers server

def primitiveSend (retry : RetryPolicy) (m : Outgoing) (answers : List Answer) (server : Server) : Run :=
  match m.body false with
  | .error e => .fail server answers e
  | .ok _    =>
    let run := HttpClient.json { retry } (some m.key) answers server
    match run.outcome with
    | .ok body => if body.rejected = [] then run else { run with outcome := .failed (.forbidden "not accepted") }
    | _        => run

-- `earlier` is the message that an earlier attempt left, where one is looked for.
def agentMailSend (earlier : Except ProviderError (Option String)) (m : Outgoing) (answers : List Answer)
    (server : Server) : Run :=
  match earlier with
  | .error e     => .fail server answers e
  | .ok (some _) => { outcome := .ok {}, rest := answers, server }
  | .ok none     =>
    match m.body m.inReplyTo.isSome with
    | .error e => .fail server answers e
    | .ok _    =>
      let run := postSend m.key answers server
      match m.inReplyTo, run.outcome with
      -- AgentMail does not know the parent by that id: a new message instead.
      | some _, .failed (.notFound _) =>
        match m.body false with
        | .error e => .fail run.server run.rest e
        | .ok _    => postSend (m.key ++ "-s") run.rest run.server
      | _     , _ => run

def send (provider : Provider) (retry : RetryPolicy) (earlier : Except ProviderError (Option String)) (m : Outgoing)
    (answers : List Answer) (server : Server) : Run :=
  match provider with
  | .gmail     => gmailSend retry answers server
  | .agentMail => agentMailSend earlier m answers server
  | .primitive => primitiveSend retry m answers server

end Kaluta.Provider
