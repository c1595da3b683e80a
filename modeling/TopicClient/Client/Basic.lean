import TopicClient.Client.Config
import TopicClient.Http.Agent
import TopicClient.Registry.Dispatch

/-!
# Clients

A client talks to one server and delivers the events it fetches from there. Copies of a client
share everything that changes: the cookies, the subscriptions and the log.
-/

namespace TopicClient

structure Client where
  config : Config
  base : String
  agent : Http.Agent
  delivery : Delivery := { registry := .empty }

namespace Client

def connect (config : Config) (agent : Http.Agent) : Except ClientError Client := do
  let base ← baseUrl config.url
  return { config, base, agent }

abbrev Action := StateM Client

abbrev Outcome (α : Type) := Except ClientError α

def registry (c : Client) : Registry Handler := c.delivery.registry

def log (record : Log.Record) : Action Unit :=
  modify fun c => { c with delivery := c.delivery.log record }

end Client

end TopicClient
