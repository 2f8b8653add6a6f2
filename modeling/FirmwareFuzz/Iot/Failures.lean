import FirmwareFuzz.Iot.Strings

/-!
# What a failed parse leaves

The parsers tell a failure by what they leave in their output. Without
separators nothing is written; a request with one space has the method stored
that is before it, if that fits, and an empty value is stored as such, although
its length is what `extract_json_value` returns for no value at all
(`failed_parse`).
-/

namespace FirmwareFuzz.Iot

open CLang

variable {b : Bounds} {l v r x y k msg msg' value value' : List UInt8} {n : Int32}

end FirmwareFuzz.Iot
