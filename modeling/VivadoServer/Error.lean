/-
  VivadoServer.Error

  The errors of the service (`src/error.rs`): their code, the text an operator
  reads and the text a client may read.
-/

namespace VivadoServer

def MAX_CLIENT_MESSAGE_CHARS : Nat := 1024

inductive AppError where
  | unauthorized
  | invalidProject
  | sessionNotFound
  | notFound (message : String)
  | capacity (message : String)
  | sessionNotRunning
  | conflict (message : String)
  | projectReuploadRequired (message : String)
  | workflowBusy
  | workflowPhase (message : String)
  | shuttingDown
  | preconditionFailed (message : String)
  | badRequest (message : String)
  | requestTimeout
  | payloadTooLarge
  | internal (message : String)
deriving DecidableEq, Repr

namespace AppError

def code : AppError → String
  | unauthorized => "unauthorized"
  | invalidProject => "invalid_project"
  | sessionNotFound => "session_not_found"
  | notFound _ => "not_found"
  | capacity _ => "capacity_reached"
  | sessionNotRunning => "session_not_running"
  | conflict _ => "sync_conflict"
  | projectReuploadRequired _ => "project_reupload_required"
  | workflowBusy => "workflow_busy"
  | workflowPhase _ => "workflow_phase_conflict"
  | shuttingDown => "service_shutting_down"
  | preconditionFailed _ => "precondition_failed"
  | badRequest _ => "invalid_request"
  | requestTimeout => "request_timeout"
  | payloadTooLarge => "payload_too_large"
  | internal _ => "internal_error"

/-- `Display` of the error. -/
def text : AppError → String
  | unauthorized => "authentication is required"
  | invalidProject => "invalid project name"
  | sessionNotFound => "session not found"
  | notFound message => "not found: " ++ message
  | capacity message => "capacity reached: " ++ message
  | sessionNotRunning => "session is not running"
  | conflict message => "conflict: " ++ message
  | projectReuploadRequired message => "project requires a complete upload: " ++ message
  | workflowBusy => "another workflow is active"
  | workflowPhase message => "invalid workflow phase: " ++ message
  | shuttingDown => "service is shutting down"
  | preconditionFailed message => "precondition failed: " ++ message
  | badRequest message => "bad request: " ++ message
  | requestTimeout => "request body timed out"
  | payloadTooLarge => "request body is too large"
  | internal message => "internal error: " ++ message

def truncateMessage (value : String) : String :=
  let chars := value.toList
  if chars.length ≤ MAX_CLIENT_MESSAGE_CHARS then value
  else String.ofList (chars.take (MAX_CLIENT_MESSAGE_CHARS - 1) ++ ['…'])

def clientMessage : AppError → String
  | internal _ => "internal server error"
  | error => truncateMessage error.text

/-- What a client reads of an error is bounded. -/
theorem clientMessage_length (error : AppError) :
    error.clientMessage.toList.length ≤ MAX_CLIENT_MESSAGE_CHARS := by
  have htruncated : ∀ value, (truncateMessage value).toList.length ≤ MAX_CLIENT_MESSAGE_CHARS := by
    intro value
    simp only [truncateMessage]
    split
    · assumption
    · simp only [String.toList_ofList, List.length_append, List.length_take, List.length_singleton]
      show min (1024 - 1) _ + 1 ≤ 1024
      omega
  cases error with
  | internal message =>
      show "internal server error".toList.length ≤ 1024
      decide
  | _ => exact htruncated _

end AppError

end VivadoServer
