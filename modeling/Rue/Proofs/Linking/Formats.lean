import Rue.Proofs.Linking.Image

/-! The two output formats: where an ELF or a Mach-O executable has the regions
of the image. -/

namespace Rue.Proofs.Linking
open Rue.Linking Rue.Lib

section File

variable {layout : ImageLayout} {contents : Contents} {index : Nat}

end File

section Elf

variable {target : Target} {linker : Linker} {image : MergedImage}

end Elf

section Macho

variable {target : Target} {linker : Linker} {image : MergedImage}

end Macho

end Rue.Proofs.Linking
