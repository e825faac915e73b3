import MiniServe.Engine.Readmit
import MiniServe.Engine.Arrival
import MiniServe.Spec.Fits

namespace MiniServe

open KVCacheManager

namespace Engine

variable {e : Engine} {model : Model} {c : EngineConfig} {ok : List Token → Prop}

end Engine

namespace SpecEngine

end SpecEngine

namespace Engine

end Engine

namespace SpecEngine

end SpecEngine

end MiniServe
