/-!
# Bitbucket values shared by the review model

Byte strings, the server's comment identifiers and the classified API failures.
-/
namespace Bbr

/-- A Zig `[]const u8`. -/
abbrev Bytes := List UInt8

namespace Bitbucket

/-- Server-assigned comment identifier. -/
abbrev CommentId := Nat

/-- Classified API failures, one for each status class of the adapter. -/
inductive ApiError where
  | unauthorized
  | forbidden
  | badRequest
  | notFound
  | rateLimited
  | conflict
  | serverError
  | unexpectedStatus
  | malformedResponse
  deriving DecidableEq, Repr

end Bitbucket

end Bbr
