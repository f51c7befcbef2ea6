import LanguageHost.Json.Value

/-! The messages a client sends. -/
namespace LanguageHost.Message

def request (id : Int) (method : String) (params : Json) : Json :=
  Json.ofMembers [("jsonrpc", .string "2.0"), ("id", .int id), ("method", .string method), ("params", params)]

def notification (method : String) (params : Json) : Json :=
  Json.ofMembers [("jsonrpc", .string "2.0"), ("method", .string method), ("params", params)]

def reply (id result : Json) : Json :=
  Json.ofMembers [("jsonrpc", .string "2.0"), ("id", id), ("result", result)]

end LanguageHost.Message
