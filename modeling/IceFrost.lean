import IceFrost.Basic
import IceFrost.Serialize
import IceFrost.Utils
import IceFrost.Keys
import IceFrost.Sign.Precomputation
import IceFrost.Dkg.Participant
import IceFrost.Dkg.Resharing
import IceFrost.Wire
