import TopicClient.Client.Auth
import TopicClient.Client.Events
import TopicClient.Proofs.Text.Splitting

/-!
# The calls of a client

The calls that end in a post, listed so that what holds of all of them can be said once.
-/

namespace TopicClient.Client

inductive Operation where
  | post (path : String) (payload : Option Payload)
  | postLogged (path : String) (payload : Option Payload)
  | login (credentials : Credentials)
  | logout
  | keepAlive
  | info
  | session
  | publish (key : String) (payload : Payload)
  | publishMessage (message : Publication)
  | subscribe (key : String) (authLevel : UInt8) (handler : Handler)
  | fetch

/-- What is left of a call if its value does not matter. -/
def settle {α : Type} (call : Action (Outcome α)) : Action (Except Fault Unit) := do
  return ((← call).map fun _ => ()).mapError .error

namespace Operation

def run : Operation → Action (Except Fault Unit)
  | post path payload => settle (Client.post path payload)
  | postLogged path payload => settle (logged path (Client.post path payload))
  | login credentials => settle (Client.login credentials)
  | logout => settle Client.logout
  | keepAlive => settle Client.keepAlive
  | info => settle Client.info
  | session => settle Client.session
  | publish key payload => settle (Client.publish key payload)
  | publishMessage message => settle (Client.publishMessage message)
  | subscribe key authLevel handler => Client.subscribe key authLevel handler
  | fetch => do return (← Client.fetch).map fun _ => ()

end Operation

theorem of_connect_eq_ok {config : Config} {agent : Http.Agent} {c : Client}
    (h : connect config agent = .ok c) :
    baseUrl config.url = .ok c.base ∧ c.delivery = { registry := .empty } := by
  unfold connect at h
  cases hbase : baseUrl config.url with
  | error e =>
    rw [hbase] at h
    cases h
  | ok base =>
    rw [hbase] at h
    cases h
    exact ⟨rfl, rfl⟩

theorem base_of_connect {text : String} {agent : Http.Agent} {c : Client}
    (h : connect (.ofUrl text) agent = .ok c) : c.base = Text.dropTrailingSlashes text := by
  have hbase := (of_connect_eq_ok h).1
  unfold baseUrl at hbase
  split at hbase
  · rw [← Except.ok.inj hbase]
    exact Text.dropTrailingSlashes_idem text
  · cases hbase

/-- A client is made from every text that is a URL without the slashes at its end. -/
theorem connect_ofUrl {text base : String} (agent : Http.Agent)
    (hbase : Text.dropTrailingSlashes text = base)
    (h : (Url.parse base).toOption.isSome = true) :
    connect (.ofUrl text) agent = .ok { config := .ofUrl text, base, agent } := by
  subst hbase
  have hurl : (Config.ofUrl text).url = Text.dropTrailingSlashes text := rfl
  unfold connect
  rw [hurl, baseUrl, Text.dropTrailingSlashes_idem]
  cases hparse : Url.parse (Text.dropTrailingSlashes text) with
  | error cause =>
    rw [hparse] at h
    cases h
  | ok url => rfl

/-- A handler is put in place without a request. -/
theorem run_register (c : Client) (key : String) (authLevel : UInt8) (handler : Handler) :
    (register key authLevel handler).run c =
      match c.delivery.subscribe key authLevel handler with
      | .ok delivery => (true, { c with delivery })
      | .error delivery => (false, { c with delivery }) := by
  simp only [register, StateT.run_bind, StateT.run_get, pure_bind]
  cases c.delivery.subscribe key authLevel handler with
  | ok delivery => rfl
  | error delivery => rfl

/-- The server hears of a handler after it has been put in place. -/
theorem run_subscribe (c : Client) (key : String) (authLevel : UInt8) (handler : Handler) :
    (Client.subscribe key authLevel handler).run c =
      match c.delivery.subscribe key authLevel handler with
      | .ok delivery =>
        StateT.run (do return (← announce ⟨key, authLevel⟩).mapError Fault.error)
          { c with delivery }
      | .error delivery => (.error .unusableKey, { c with delivery }) := by
  rw [Client.subscribe, StateT.run_bind, run_register]
  cases c.delivery.subscribe key authLevel handler with
  | ok delivery => rfl
  | error delivery => rfl

end TopicClient.Client
