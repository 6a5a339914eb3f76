import Citrine.Lib.Machine
import Citrine.Lib.Segment
import Citrine.Dl.Accept
import Citrine.Dl.Reassembly
import Citrine.Dl.Transmit
import Citrine.Dl.Position
import Citrine.Dl.Window
import Citrine.Dl.Delivery
import Citrine.Comlib.Ribu
import Citrine.Comlib.ClList
import Citrine.Lib.Feistel
import Citrine.Comlib.Des
import Citrine.Comlib.Imei
import Citrine.Lib.Absorb
import Citrine.Comlib.Md5
import Citrine.Db.Search
import Citrine.Lib.Splice
import Citrine.Db.Records
import Citrine.Lib.Chunks
import Citrine.Lib.Loop
import Citrine.Ccd.Tlv
import Citrine.Ccd.Progress
import Citrine.Ccd.Termination
import Citrine.Lib.Memory
import Citrine.Osl.Com
import Citrine.Osl.Queue
import Citrine.Lib.Circle
import Citrine.Osl.Tim
import Citrine.Osl.TimerRing
import Citrine.Osl.TimerExpiry
import Citrine.Osl.Timers
import Citrine.Lib.Slots
import Citrine.Aci.ConcSms
import Citrine.Aci.Tables
import Citrine.Aci.Collect
import Citrine.Aci.Inbox
import Citrine.Aci.AciLst
import Citrine.Aci.ListNodes
import Citrine.Aci.SortConcat
import Citrine.Lib.Links
import Citrine.Rvf.Buffer
import Citrine.Rvf.Queue
import Citrine.Rvf.TimerList
import Citrine.Rvf.Layout
import Citrine.Rvf.FreeLists
import Citrine.Rvf.Focus
import Citrine.Rvf.Steps
import Citrine.Rvf.Merge
import Citrine.Rvf.Intact
import Citrine.Rvf.Alloc
import Citrine.Rvf.Heap
import Citrine.Sms.Rl
import Citrine.Sms.Reports
import Citrine.Aci.LineSplit
import Citrine.Aci.LineText
import Citrine.Aci.LineEdit
import Citrine.Lib.Feed
import Citrine.Aci.LineChunks
import Citrine.Lib.Parts
import Citrine.Aci.LineSources
import Citrine.Aci.LineCommands
import Citrine.Aci.LineRun
import Citrine.Aci.LineRepeat
import Citrine.Aci.LineDraft
import Citrine.Aci.LineFollowed
import Citrine.Aci.LineTyped
import Citrine.Aci.LineEdited
import Citrine.Aci.LineQuoted
import Citrine.Lib.While
import Citrine.L2p.L2p
import Citrine.L2p.Sending
import Citrine.L2p.Receiving
import Citrine.L2p.RoundTrip
import Citrine.Lib.Keyed
import Citrine.Dti.ConnMng
import Citrine.Dti.Channels
import Citrine.Dti.Reconnect
import Citrine.Dti.ChannelIds
import Citrine.Lib.Pair
import Citrine.Dti.Dtilib
import Citrine.Dti.Credit
import Citrine.Lib.Bits
import Citrine.Bf.Bitfun
import Citrine.Bf.Reading
import Citrine.Bf.Writing
import Citrine.Bf.Determinants
import Citrine.Bf.Bcd
import Citrine.Ccd.Upn
import Citrine.Ccd.Csn1
import Citrine.Ccd.Lv
import Citrine.Bf.Chunk
import Citrine.Ccd.SeqExt
import Citrine.Aci.CallLists
import Citrine.Ccd.ExtGroup
import Citrine.Ccd.SeekExt
import Citrine.Lib.Serial
import Citrine.Lib.Outcome
import Citrine.Ffs.Errors
import Citrine.Ffs.Block
import Citrine.Ffs.Fsck
import Citrine.Ffs.Params
import Citrine.Ffs.ObjectData
import Citrine.Ffs.Open
import Citrine.Ffs.Stream
import Citrine.Ffs.StreamBuffer
import Citrine.Ffs.StreamRuns
import Citrine.Ffs.InodeForest
import Citrine.Ffs.InodesReclaim
import Citrine.Ffs.DataReclaim
import Citrine.Ffs.Journal
import Citrine.Ffs.JournalFile
import Citrine.Ffs.JournalRuns
import Citrine.Lib.Cutting
import Citrine.Aci.ConcSend
import Citrine.Rr.Hopping
import Citrine.Rr.NcellList
import Citrine.Rr.StoredPrim
import Citrine.Lib.Turns
import Citrine.Uart.Scheduling
import Citrine.Lib.Stuffing
import Citrine.Uart.Txf
import Citrine.Uart.Rxf
import Citrine.Uart.Framing
import Citrine.Aci.Pco
import Citrine.Dti.SendQueue
import Citrine.Dti.SendChain
import Citrine.Gpf.TokGrammar
import Citrine.Gpf.Tok
