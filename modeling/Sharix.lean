import Sharix.RunProofs
import Sharix.ListProofs
import Sharix.BuddyProofs
import Sharix.BuddyBlocksProofs
import Sharix.BuddyRunProofs
import Sharix.BuddyInitProofs
import Sharix.BuddyFrameProofs
import Sharix.DyadicProofs
import Sharix.BuddyMergeProofs
import Sharix.BuddyRestoreProofs
import Sharix.ThreadProofs
import Sharix.ProcProofs
import Sharix.PagingProofs
import Sharix.PageTableProofs
import Sharix.PageMapProofs
import Sharix.VmmProofs
import Sharix.OutOfMemoryProofs
import Sharix.IntervalProofs
import Sharix.MmapListProofs
import Sharix.PgfaultProofs
import Sharix.RedBlackProofs
import Sharix.RbTreeProofs
import Sharix.RbHeapProofs
import Sharix.RbInsertProofs
import Sharix.RbDeleteProofs
import Sharix.RbShapeProofs
import Sharix.RbRunProofs
import Sharix.RbSearchProofs
import Sharix.RbNextProofs
import Sharix.SlabProofs
import Sharix.SlabLayoutProofs
import Sharix.SlabInvProofs
import Sharix.SlabAllocProofs
import Sharix.SlabFreeProofs
import Sharix.SlabRunProofs
import Sharix.SlabSumProofs
import Sharix.RingBufferProofs
import Sharix.KeyboardProofs
import Sharix.SelfMapProofs
import Sharix.PhysMapProofs
import Sharix.MaximalRunProofs
import Sharix.PgtableItemsProofs
import Sharix.PageInitProofs
import Sharix.StabProofs
import Sharix.StabBracketProofs
import Sharix.PrintnumProofs
import Sharix.PrintfmtProofs
import Sharix.PrintfmtPiecesProofs
import Sharix.PrintfmtReadProofs
import Sharix.PrintfmtDecimalProofs
import Sharix.PrintfmtRunProofs
import Sharix.PrintfmtNumberProofs
import Sharix.PrintfmtStringProofs
import Sharix.SnprintfProofs
import Sharix.StrtolProofs
import Sharix.StrtolPrintProofs
import Sharix.ParseProofs
import Sharix.KeyShiftProofs
import Sharix.ConsRingProofs
import Sharix.KeybufQueueProofs
import Sharix.PageFlagsProofs
import Sharix.FillRectProofs
import Sharix.FloatProofs
import Sharix.DrawLineProofs
import Sharix.ListRunProofs
import Sharix.BlockProofs
import Sharix.MemmoveProofs
import Sharix.ReadsegProofs
import Sharix.CheckedProofs
import Sharix.CacheEstimateProofs
import Sharix.RandProofs
import Sharix.EditboxProofs
import Sharix.GetPixelProofs
import Sharix.WritesProofs
import Sharix.DrawBitmapProofs
import Sharix.FillBitmapProofs
import Sharix.MachineProofs
import Sharix.TrapProofs
import Sharix.SwitchProofs
import Sharix.ThreadStartProofs
import Sharix.LcgProofs
import Sharix.RandPeriodProofs
import Sharix.BootMapProofs
import Sharix.LinearProofs
import Sharix.KeybufInterruptProofs
import Sharix.BootLoaderProofs
import Sharix.StringOpsProofs
import Sharix.DebuginfoProofs
import Sharix.BacktraceProofs
import Sharix.PicProofs
import Sharix.SlabUseProofs
import Sharix.KernelHeapProofs
import Sharix.MmHeapProofs
import Sharix.RbTreeHeapProofs
import Sharix.FontProofs
import Sharix.MonitorProofs
