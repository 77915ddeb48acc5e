import SoapBinding.Base64.Basic

/-!
# Base64 in chunks

Bytes cut into chunks of one size, the last of which may be shorter, and each chunk encoded on its
own. Where the size is a multiple of three, only the last chunk is padded, and the texts in a row are
the text of all the bytes.
-/

namespace SoapBinding.Base64

/-- Bytes cut into chunks of `size + 1` bytes, the last of them shorter if need be. -/
def chunksOfSucc (size : Nat) : Bytes → List Bytes
  | [] => []
  | b :: bs => (b :: bs.take size) :: chunksOfSucc size (bs.drop size)
termination_by bs => bs.length
decreasing_by simp only [List.length_drop, List.length_cons]; omega

/-- Bytes cut into chunks of a size; no chunk is empty. -/
def chunks (size : Nat) (bs : Bytes) : List Bytes := chunksOfSucc (size - 1) bs

/-- The texts of the chunks. -/
def encodeChunks (size : Nat) (bs : Bytes) : List String :=
  (chunks size bs).map fun c => String.ofList (encode c)

/-- Nothing is lost between chunks. -/
theorem flatten_chunksOfSucc (size : Nat) (bs : Bytes) : (chunksOfSucc size bs).flatten = bs := by
  fun_induction chunksOfSucc size bs with
  | case1 => rfl
  | case2 b bs ih => simp [ih]

end SoapBinding.Base64
