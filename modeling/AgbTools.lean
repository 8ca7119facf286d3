import AgbTools.Runs
import AgbTools.Transducer
import AgbTools.WordArray
import AgbTools.MultiBoot
import AgbTools.MultiBootArea
import AgbTools.MultiBootCipher
import AgbTools.MultiBootHandshake
import AgbTools.MultiBootSession
import AgbTools.Stwi
import AgbTools.StwiPackets
import AgbTools.StwiRequests
import AgbTools.StwiCompletion
import AgbTools.CellMemory
import AgbTools.Rfu
import AgbTools.Framing
import AgbTools.RfuFrame
import AgbTools.RfuReceive
import AgbTools.MaskSets
import AgbTools.RfuLink
import AgbTools.RfuSlots
import AgbTools.RfuBudget
import AgbTools.RfuFlags
import AgbTools.RfuContain
import AgbTools.StopAndWait
import AgbTools.SiiRtc
import AgbTools.SiiRtcChip
import AgbTools.Flash
import AgbTools.FlashSave
import AgbTools.FlashAddress
import AgbTools.M4aLock
import AgbTools.OwnedLists
import AgbTools.M4aCgb
import AgbTools.M4aSequencer
import AgbTools.ThumbMachine
import AgbTools.ThumbFrame
import AgbTools.LongDivision
import AgbTools.LibGcc
import AgbTools.LibGccDivide
import AgbTools.ThumbProgram
import AgbTools.LibGccThumb
import AgbTools.LibGccRemainder
import AgbTools.ThumbElimination
import AgbTools.ThumbBranches
import AgbTools.LiteralPool
import AgbTools.NearestEven
import AgbTools.SoftFloat
import AgbTools.SoftFloatIeee
import AgbTools.SoftFloatPack
import AgbTools.SoftFloatAdd
import AgbTools.SoftFloatMultiply
import AgbTools.SoftFloatDivide
import AgbTools.SoftFloatCompare
import AgbTools.SoftFloatConvert
import AgbTools.SoftFloatNarrow
import AgbTools.SoftFloatWide
import AgbTools.DoubleRounding
import AgbTools.AsciiDirective
import AgbTools.ThumbConstants
import AgbTools.ThumbAddress
import AgbTools.ThumbText
import AgbTools.ThumbLoads
import AgbTools.ThumbEncoding
import AgbTools.RfuTransfer
import AgbTools.RfuDelivery
import AgbTools.RfuReliable
import AgbTools.RfuPhaseSkip
import AgbTools.RfuProgress
import AgbTools.RfuBroadcast
import AgbTools.StwiExchange
import AgbTools.RfuIdentify
import AgbTools.MultiBootKeyB
import AgbTools.LastMin
import AgbTools.M4aNotes
import AgbTools.M4aActions
import AgbTools.M4aLifetime
import AgbTools.RotatingWord
import AgbTools.LoopedTrack
import AgbTools.M4aMixer
import AgbTools.M4aMixerFixed
import AgbTools.M4aMixerPitch
import AgbTools.Interpolation
import AgbTools.M4aPitch
import AgbTools.M4aVolume
import AgbTools.M4aEnvelope
import AgbTools.M4aFade
import AgbTools.M4aTempo
import AgbTools.M4aWindow
import AgbTools.M4aReverb
import AgbTools.FlashWait
import AgbTools.Nesting
import AgbTools.M4aControl
import AgbTools.M4aSong
import AgbTools.M4aScript
import AgbTools.M4aModulation
import AgbTools.M4aSongText
import AgbTools.M4aCry
import AgbTools.M4aMixerDelta
import AgbTools.M4aMixerReverse
import AgbTools.HandlerChain
import AgbTools.M4aPlayers
import AgbTools.BlockCopy
import AgbTools.ThumbBlockMove
import AgbTools.LibGccDigits
import AgbTools.ShiftRegister
import AgbTools.MultiBootHash
import AgbTools.RingQueue
import AgbTools.AgbPrint
import AgbTools.Listing
import AgbTools.ThumbJumps
import AgbTools.ThumbArguments
