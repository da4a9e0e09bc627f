import LinkOrder.Proofs.LoadFailure
import LinkOrder.Proofs.Writing

namespace LinkOrder.Job

open Text

variable {t : FileTree} {disk : Disk} {job : Job} {units : List LinkUnit} {o : Outcome} {names : List String}
  {l : List Artifact} {log : List LogLine}

section

variable (hload : (load t job.inputs).1 = .ok units) (hlink : job.link units = .ok o)
include hload hlink

end

namespace Overwritten

def tree : FileTree :=
  { entries :=
      [(["d"], .dir), (["d", "a"], .file (encode "<units><unit name=\"A\"><def id=\"a\"/></unit></units>"))]
    current := ["d"] }

def inPlace : Job := { inputs := [⟨"a"⟩], output := ⟨"./a"⟩, report := some ⟨"../report"⟩ }

theorem output_destination : tree.destination inPlace.output = .ok ["d", "a"] := rfl

theorem report_destination : tree.destination ⟨"../report"⟩ = .ok ["report"] := rfl

end Overwritten

end LinkOrder.Job
